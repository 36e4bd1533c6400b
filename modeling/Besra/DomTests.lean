import Besra.DomTree
import Mathlib.Data.List.Perm.Subperm

/-!
What the tests of the tree operations find out when the nodes form trees: each of them
ends, and answers from the lists of children and the ways up.
-/
namespace Besra.DomTests
open PointerChain DomNode DomTree

variable {dom : Dom} {kids : Ptr → List Ptr}

theorem length_le {ns : List Ptr} {size : Nat} (nodup : ns.Nodup) (there : ∀ n ∈ ns, n < size) : ns.length ≤ size := by
  have within : ns ⊆ List.range size := fun n member => List.mem_range.mpr (there n member)
  simpa using (List.subperm_of_subset nodup within).length_le

theorem kids_leads (tree : Tree dom kids) (p : Ptr) :
    Leads (fun n => (dom.node n).next) (dom.node p).firstChild (kids p) none := by
  have leads := (tree.threaded p).leads
  rwa [Option.or_none, ← tree.first] at leads

theorem kids_length (tree : Tree dom kids) (p : Ptr) : (kids p).length ≤ dom.size :=
  length_le (tree.nodup p) (fun c member => (tree.there c p ((tree.child p c).mp member)).1)

theorem above (tree : Tree dom kids) {n : Ptr} (there : n < dom.size) :
    ∃ as, Leads (fun n => (dom.node n).parent) (some n) as none ∧ as.length ≤ dom.size := by
  obtain ⟨as, leads⟩ := tree.rooted n
  refine ⟨as, leads, length_le (leads_nodup leads) ?_⟩
  have within : ∀ (as : List Ptr) (start : Option Ptr), (∀ m, start = some m → m < dom.size) →
      Leads (fun n => (dom.node n).parent) start as none → ∀ m ∈ as, m < dom.size := by
    intro as
    induction as with
    | nil => exact fun _ _ _ m member => nomatch member
    | cons a as ih =>
      rintro start first ⟨rfl, rest⟩ m member
      rcases List.mem_cons.mp member with rfl | later
      · exact first m rfl
      · exact ih _ (fun q parent => (tree.there a q parent).2) rest m later
  exact within as (some n) (fun m same => Option.some_inj.mp same ▸ there) leads

theorem someChild_eq (tree : Tree dom kids) (p : Node → Bool) (n : Ptr) :
    someChild dom p n = some ((kids n).any (fun m => p (dom.node m))) := by
  unfold someChild
  rw [walk_eq (kids_leads tree n) (kids_length tree n)]
  rfl

theorem someAbove_eq {as : List Ptr} {n : Ptr} (leads : Leads (fun n => (dom.node n).parent) (some n) as none)
    (enough : as.length ≤ dom.size) (p : Ptr → Bool) : someAbove dom p n = some (as.any p) :=
  someOn_eq leads enough (fun _ _ => rfl)

def Singular (type : NodeType) : Prop := type = .element ∨ type = .documentType

theorem permittedChild_eq (tree : Tree dom kids) (p c : Ptr) : ∃ valid, permittedChild dom p c = some valid ∧
    (valid = true ↔ permittedType (dom.node p).type (dom.node c).type = true ∧
      ((dom.node p).type = .document → Singular (dom.node c).type → ∀ m ∈ kids p, (dom.node m).type ≠ (dom.node c).type)) := by
  unfold permittedChild
  dsimp only
  split
  next once =>
    rw [someChild_eq tree]
    refine ⟨_, rfl, ?_⟩
    rw [Bool.and_eq_true, Bool.not_eq_true', List.any_eq_false]
    refine and_congr_right (fun _ => ⟨fun none _ _ m member => ?_, fun none m member => ?_⟩)
    · simpa using none m member
    · simpa using none once.1 once.2 m member
  next free =>
    refine ⟨_, rfl, ?_⟩
    rw [iff_self_and]
    exact fun _ document singular => absurd ⟨document, singular⟩ free

theorem refused_eq (tree : Tree dom kids) (p f : Ptr) : ∃ no, refused dom p f = some no ∧
    (no = false ↔ ∀ c ∈ kids f, permittedChild dom p c = some true) := by
  have each : ∀ c ∈ kids f, (permittedChild dom p c).map (!·) = some (permittedChild dom p c != some true) := by
    intro c _
    obtain ⟨valid, is, -⟩ := permittedChild_eq tree p c
    rw [is]
    rcases valid <;> rfl
  refine ⟨_, someOn_eq (kids_leads tree f) (kids_length tree f) each, ?_⟩
  rw [List.any_eq_false]
  exact forall₂_congr (fun c _ => by simp)

theorem readonly_total (tree : Tree dom kids) {n : Ptr} (there : n < dom.size) : ∃ b, readonly dom n = some b := by
  obtain ⟨as, leads, enough⟩ := above tree there
  unfold readonly
  split
  · exact ⟨_, rfl⟩
  · split
    · exact ⟨_, rfl⟩
    · split
      · exact ⟨_, rfl⟩
      · exact ⟨_, someAbove_eq leads enough _⟩

end Besra.DomTests
