import Mathlib
import Besra.Intern

/-!
Which strings of the table of `libwapcaplet` are needed: one that clients refer to, and one that another string has as
its caseless copy.
-/
namespace Besra.InternNeeds
open Lwc Intern

def heldBy (clients : List Nat) (a : Nat) : Nat := clients.count a

theorem heldBy_cons (clients : List Nat) (a : Nat) : heldBy (a :: clients) = give (heldBy clients) a := by
  funext x
  rw [heldBy, List.count_cons, give]
  by_cases here : x = a
  · simp [here, heldBy]
  · simp [here, Ne.symm here, heldBy]

variable {a : Nat} {clients clients' : List Nat} {table' table : Table} {o q : Str}

theorem heldBy_pos : 0 < heldBy clients a ↔ a ∈ clients := List.count_pos_iff

def Needed (table : Table) (clients : List Nat) (a : Nat) : Prop :=
  a ∈ clients ∨ ∃ p ∈ table, p.address ≠ a ∧ p.insensitive = some a

theorem Needed.mono (needed : Needed table clients a) (more : a ∈ clients → a ∈ clients')
    (kept : ∀ p ∈ table, p.insensitive = some a → ∃ q ∈ table', q.address = p.address ∧ q.insensitive = some a) :
    Needed table' clients' a := by
  rcases needed with held | ⟨p, among, other, pointed⟩
  · exact .inl (more held)
  · obtain ⟨q, among', address, pointed'⟩ := kept p among pointed
    exact .inr ⟨q, among', address ▸ other, pointed'⟩

structure Alive (table : Table) (clients : List Nat) : Prop where
  good : Good table (heldBy clients)
  needed : ∀ o ∈ table, Needed table clients o.address

theorem alive_empty : Alive [] [] := ⟨good_empty, by simp⟩

theorem Alive.perm (alive : Alive table clients) (perm : clients.Perm clients') : Alive table clients' := by
  have same : heldBy clients' = heldBy clients := funext fun a => (perm.count_eq a).symm
  refine ⟨by rw [same]; exact alive.good, fun o among => ?_⟩
  exact (alive.needed o among).mono perm.mem_iff.mp fun p listed points => ⟨p, listed, rfl, points⟩

theorem Alive.held_of_points (alive : Alive table clients) {p : Str} (among : o ∈ table) (among' : p ∈ table)
    (other : p.address ≠ o.address) (points : p.insensitive = some o.address) : p.address ∈ clients := by
  rcases alive.needed p among' with held | ⟨q, among'', -, pointed⟩
  · exact held
  · obtain ⟨o', listed, address, bytes⟩ := alive.good.lowered p among' _ points
    obtain rfl := List.inj_on_of_nodup_map alive.good.addresses listed among address
    obtain ⟨p', listed', address', bytes'⟩ := alive.good.lowered q among'' _ pointed
    obtain rfl := List.inj_on_of_nodup_map alive.good.addresses listed' among' address'
    have same : o'.bytes = p'.bytes := by rw [bytes, bytes', insensitive_idem]
    obtain rfl := List.inj_on_of_nodup_map alive.good.contents among among' same
    exact absurd rfl other

theorem Alive.others_le (alive : Alive table clients) (among : o ∈ table) (apart : Nat → Bool)
    (held : ∀ p ∈ table, p.address ≠ o.address → p.insensitive = some o.address → apart p.address = true) :
    pointers (table.filter (·.address != o.address)) o.address ≤ (clients.filter apart).length := by
  rw [pointers, List.countP_eq_length_filter, List.filter_filter, ← List.length_map (f := (·.address))]
  refine List.Subperm.length_le (List.Nodup.subperm ?_ ?_)
  · exact alive.good.addresses.sublist (List.filter_sublist.map _)
  · intro x listed
    obtain ⟨p, member, rfl⟩ := List.mem_map.mp listed
    obtain ⟨among', both⟩ := List.mem_filter.mp member
    simp only [Bool.and_eq_true, beq_iff_eq, bne_iff_ne] at both
    refine List.mem_filter.mpr ⟨alive.held_of_points among among' both.2 both.1, held p among' both.2 both.1⟩

theorem heldBy_add_filter (clients : List Nat) (a : Nat) :
    heldBy clients a + (clients.filter (· != a)).length = clients.length := by
  rw [heldBy, List.count_eq_length_filter]
  exact (List.length_eq_length_filter_add (· == a)).symm

theorem Alive.bounded (alive : Alive table clients) (among : o ∈ table) : o.refcnt.toNat ≤ clients.length + 1 := by
  have counted := alive.good.counted o among
  have split := pointers_filter alive.good.addresses among o.address
  have others := alive.others_le among (· != o.address) fun p _ other _ => by simpa using other
  have clients' := heldBy_add_filter clients o.address
  have self : (if o.insensitive = some o.address then 1 else 0) ≤ 1 := by
    split
    · exact Nat.le_refl 1
    · exact Nat.zero_le 1
  omega

theorem Alive.bounded_caseless (alive : Alive table clients) (among : o ∈ table) (among' : q ∈ table)
    (unset : o.insensitive = none) (held : o.address ∈ clients) : q.refcnt.toNat ≤ clients.length := by
  have counted := alive.good.counted q among'
  have split := pointers_filter alive.good.addresses among' q.address
  have clients' := heldBy_add_filter clients q.address
  by_cases same : q = o
  · have others := alive.others_le among' (· != q.address) fun p _ other _ => by simpa using other
    rw [same, unset, if_neg (by simp), ← same] at split
    omega
  · have apart : o.address ≠ q.address := fun equal =>
      same (List.inj_on_of_nodup_map alive.good.addresses among' among equal.symm)
    have others := alive.others_le among' (fun x => x != o.address && x != q.address) fun p listed other points => by
      have other' : p.address ≠ o.address := fun equal => by
        rw [List.inj_on_of_nodup_map alive.good.addresses listed among equal, unset] at points
        cases points
      simp [other, other']
    have fewer : (clients.filter fun x => x != o.address && x != q.address).length < (clients.filter (· != q.address)).length := by
      rw [← List.filter_filter]
      refine List.length_filter_lt_length_iff_exists.mpr ⟨o.address, List.mem_filter.mpr ⟨held, by simpa using apart⟩, by simp⟩
    have self : (if q.insensitive = some q.address then 1 else 0) ≤ 1 := by
      split
      · exact Nat.le_refl 1
      · exact Nat.zero_le 1
    omega

theorem needed_keeps (needed : Needed table clients a) (more : a ∈ clients → a ∈ clients')
    (keeps : Keeps table table') : Needed table' clients' a := by
  refine needed.mono more fun p among points => ?_
  obtain ⟨q, among', address, -, same⟩ := keeps p among
  exact ⟨q, among', address, same.trans points⟩

theorem alive_ref (alive : Alive table clients) (live : a ∈ addresses table) (few : clients.length + 2 < 2 ^ 32) :
    Alive (ref table a) (a :: clients) := by
  refine ⟨?_, fun o among => ?_⟩
  · rw [heldBy_cons]
    refine good_ref alive.good (fun o among _ => ?_) live
    have bounded := alive.bounded among
    omega
  · obtain ⟨p, listed, rfl⟩ := mem_modify.mp among
    have address : (if p.address = a then { p with refcnt := p.refcnt + 1 } else p).address = p.address := by
      split <;> rfl
    rw [address]
    exact needed_keeps (alive.needed p listed) (List.mem_cons_of_mem _) (keeps_ref table a)

theorem alive_new (alive : Alive table clients) {bytes : LwcString} {hash : UInt32} (fresh : a ∉ addresses table)
    (hashed : hash = calculateHash bytes) (absent : ∀ o ∈ table, o.bytes ≠ bytes) :
    Alive (⟨a, bytes, hash, 1, none⟩ :: table) (a :: clients) := by
  refine ⟨?_, fun o among => ?_⟩
  · rw [heldBy_cons]
    exact good_new alive.good fresh hashed absent
  · rcases List.mem_cons.mp among with rfl | listed
    · exact .inl (List.mem_cons_self ..)
    · exact needed_keeps (alive.needed o listed) (List.mem_cons_of_mem _) (keeps_cons table _)

variable (alloc : Allocator)

theorem alive_internString (alive : Alive table clients) (s : LwcString) (few : clients.length + 2 < 2 ^ 32) :
    Alive (internString alloc table s).1 ((internString alloc table s).2 :: clients) := by
  rw [internString]
  rcases intern_cases alloc calculateHash strncmp id table s with ⟨o, among, -, result⟩ | ⟨unmatched, result⟩
  · rw [result]
    exact alive_ref alive (mem_addresses.mpr ⟨o, among, rfl⟩) few
  · rw [result]
    exact alive_new alive (alloc.unused _) rfl (absent_of_unmatched alive.good rfl rfl (strncmp_refl s) unmatched)

theorem alive_setCaseless {middle : Table} (alive : Alive table clients) {b : Nat} (among : o ∈ table)
    (unset : o.insensitive = none) (keeps : Keeps table middle) (good : Good middle (give (heldBy clients) b))
    (among' : q ∈ middle) (address : q.address = b) (lower : q.bytes = insensitive o.bytes)
    (others : ∀ r ∈ middle, r.address ∈ addresses table ∨ r.address = b ∧ b ≠ o.address) :
    Alive (modify middle o.address (Str.pointTo b)) clients := by
  obtain ⟨o', listed, here, same, still⟩ := keeps o among
  subst address
  refine ⟨?_, fun r' member => ?_⟩
  · rw [← here]
    exact good_setCaseless good listed among' (still.trans unset) (by rw [lower, same])
  · obtain ⟨r, source, rfl⟩ := mem_modify.mp member
    have address : (if r.address = o.address then r.pointTo q.address else r).address = r.address := by
      split <;> rfl
    rw [address]
    rcases others r source with old | ⟨new, apart⟩
    · obtain ⟨p, listed', old⟩ := mem_addresses.mp old
      rw [← old]
      refine (alive.needed p listed').mono id fun s member' points => ?_
      obtain ⟨t, target, address', -, same'⟩ := keeps s member'
      have other : ¬ t.address = o.address := fun equal => by
        rw [List.inj_on_of_nodup_map alive.good.addresses member' among (address'.symm.trans equal), unset] at points
        cases points
      exact ⟨t, mem_modify.mpr ⟨t, target, if_neg other⟩, address', same'.trans points⟩
    · refine .inr ⟨o'.pointTo q.address, mem_modify.mpr ⟨o', listed, if_pos here⟩, ?_, congrArg some new.symm⟩
      rw [new]
      exact fun equal => apart (equal.symm.trans here)

theorem addresses_ref (table : Table) (a : Nat) : addresses (ref table a) = addresses table := map_modify fun _ => rfl

theorem alive_ensureCaseless (alive : Alive table clients) (among : o ∈ table) (held : o.address ∈ clients)
    (few : clients.length + 1 < 2 ^ 32) : Alive (ensureCaseless alloc table o) clients := by
  rw [ensureCaseless]
  by_cases unset : o.insensitive = none
  · rw [if_pos unset, internCaselessString]
    have length : (insensitive o.bytes).length = o.bytes.length := by simp [insensitive]
    have equal : lcaseStrncmp (insensitive o.bytes) o.bytes = true := (lcaseStrncmp_iff length).mpr rfl
    rcases intern_cases alloc calculateLcaseHash lcaseStrncmp insensitive table o.bytes with
      ⟨q, among', matched, result⟩ | ⟨unmatched, result⟩
    · have good : Good (ref table q.address) (give (heldBy clients) q.address) := by
        refine good_ref alive.good (fun p listed _ => ?_) (mem_addresses.mpr ⟨q, among', rfl⟩)
        have bounded := alive.bounded_caseless among listed unset held
        omega
      obtain ⟨q', member, address, bytes, -⟩ := keeps_ref table q.address q among'
      have lower : q'.bytes = insensitive o.bytes := bytes.trans ((lcaseStrncmp_iff matched.2.1).mp matched.2.2)
      rw [result]
      refine alive_setCaseless alive among unset (keeps_ref table q.address) good member address lower fun r listed => ?_
      exact .inl (addresses_ref table q.address ▸ List.mem_map_of_mem listed)
    · have absent := absent_of_unmatched alive.good (calculateLcaseHash_eq _) length equal unmatched
      have fresh := alloc.unused (addresses table)
      have good := good_new alive.good fresh (calculateLcaseHash_eq _) absent
      rw [result]
      refine alive_setCaseless alive among unset (keeps_cons table _) good (List.mem_cons_self ..) rfl rfl fun r listed => ?_
      rcases List.mem_cons.mp listed with rfl | old
      · exact .inr ⟨rfl, fun equal => fresh (equal ▸ mem_addresses.mpr ⟨o, among, rfl⟩)⟩
      · exact .inl (mem_addresses.mpr ⟨r, old, rfl⟩)
  · rw [if_neg unset]
    exact alive

theorem grows_of_keeps (keeps : Keeps table table') : Grows table table' := by
  intro o among
  obtain ⟨p, among', address, bytes, -⟩ := keeps o among
  exact ⟨p, among', address, bytes⟩

theorem keeps_intern (hasher : LwcString → UInt32) (compare : LwcString → LwcString → Bool)
    (copy : LwcString → LwcString) (table : Table) (s : LwcString) : Keeps table (intern alloc hasher compare copy table s).1 := by
  rcases intern_cases alloc hasher compare copy table s with ⟨o, -, -, result⟩ | ⟨-, result⟩
  · rw [result]
    exact keeps_ref table o.address
  · rw [result]
    exact keeps_cons table _

theorem grows_ensureCaseless (table : Table) (o : Str) : Grows table (ensureCaseless alloc table o) := by
  rw [ensureCaseless]
  split
  · rw [internCaselessString]
    exact (grows_of_keeps (keeps_intern alloc _ _ _ _ _)).trans (grows_modify (fun _ => rfl) fun _ => rfl)
  · exact fun p among => ⟨p, among, rfl, rfl⟩

theorem caseless_set (among : o ∈ table) :
    ∃ p ∈ ensureCaseless alloc table o, p.address = o.address ∧ ∃ b, p.insensitive = some b := by
  rw [ensureCaseless]
  by_cases unset : o.insensitive = none
  · rw [if_pos unset, internCaselessString]
    obtain ⟨p, among', address, -⟩ :=
      keeps_intern alloc calculateLcaseHash lcaseStrncmp insensitive table o.bytes o among
    exact ⟨_, mem_modify.mpr ⟨p, among', if_pos address⟩, address, _, rfl⟩
  · rw [if_neg unset]
    exact ⟨o, among, rfl, Option.ne_none_iff_exists'.mp unset⟩

/-- A reference of a client given back. -/
theorem alive_unref {fuel : Nat} (alive : Alive table (a :: clients)) (enough : table.length < fuel) :
    Alive (unref fuel table a) clients := by
  refine ⟨(unref_spec (heldBy_cons clients a ▸ alive.good) enough).1, ?_⟩
  induction fuel generalizing table a with
  | zero => omega
  | succ fuel ih =>
    have good := alive.good
    rw [heldBy_cons] at good
    obtain ⟨o, among, rfl⟩ := mem_addresses.mp (good.live a (by simp [give]))
    -- what another string needs is left, up to what the string itself referred to
    have rest : ∀ p ∈ table, p.address ≠ o.address → Needed (table.filter (·.address != o.address)) clients p.address ∨
        o.insensitive = some p.address := by
      intro p listed other
      rcases alive.needed p listed with held | ⟨s, member, apart, points⟩
      · exact .inl (.inl ((List.mem_cons.mp held).resolve_left other))
      · by_cases same : s.address = o.address
        · obtain rfl := List.inj_on_of_nodup_map good.addresses member among same
          exact .inr points
        · exact .inl (.inr ⟨s, List.mem_filter.mpr ⟨member, by simpa using same⟩, apart, points⟩)
    rcases unref_cases good among fuel with
      ⟨unheld, unpointed, ⟨alone, result⟩ | ⟨b, apart, caseless, result⟩⟩ | ⟨needed, result⟩
    · rw [result]
      intro p member
      obtain ⟨listed, other⟩ := List.mem_filter.mp member
      have other' : p.address ≠ o.address := by simpa using other
      refine (rest p listed other').resolve_right fun points => ?_
      rcases alone with none_ | self
      · rw [none_] at points
        cases points
      · exact other' (Option.some.inj (points.symm.trans self))
    · have shorter := length_without among
      have passed := good_passed good among unpointed unheld apart caseless
      rw [← heldBy_cons] at passed
      rw [result]
      refine ih ⟨passed, fun p member => ?_⟩ (by omega)
      obtain ⟨listed, other⟩ := List.mem_filter.mp member
      rcases rest p listed (by simpa using other) with needed | points
      · exact needed.mono (List.mem_cons_of_mem _) fun s member' points => ⟨s, member', rfl, points⟩
      · rw [Option.some.inj (caseless.symm.trans points)]
        exact .inl (List.mem_cons_self ..)
    · rw [result]
      intro p' member
      obtain ⟨p, listed, rfl⟩ := mem_modify.mp member
      have keeps : ∀ s ∈ table, ∃ t ∈ modify table o.address fun p => { p with refcnt := o.refcnt - 1 },
          t.address = s.address ∧ t.insensitive = s.insensitive := by
        intro s member'
        refine ⟨_, mem_modify.mpr ⟨s, member', rfl⟩, ?_⟩
        split <;> exact ⟨rfl, rfl⟩
      have address : (if p.address = o.address then { p with refcnt := o.refcnt - 1 } else p).address = p.address := by
        split <;> rfl
      rw [address]
      by_cases here : p.address = o.address
      · -- what refers to it besides is a client or another string
        rw [here]
        rcases Nat.eq_zero_or_pos (heldBy clients o.address) with unheld | held
        · rw [unheld, Nat.zero_add, pointers, List.countP_pos_iff] at needed
          obtain ⟨s, member', points⟩ := needed
          obtain ⟨member', other⟩ := List.mem_filter.mp member'
          obtain ⟨t, among', address', same⟩ := keeps s member'
          exact .inr ⟨t, among', address' ▸ by simpa using other, same.trans (by simpa using points)⟩
        · exact .inl (heldBy_pos.mp held)
      · rcases alive.needed p listed with held | ⟨s, member', other, points⟩
        · exact .inl ((List.mem_cons.mp held).resolve_left here)
        · obtain ⟨t, among', address', same⟩ := keeps s member'
          exact .inr ⟨t, among', address' ▸ other, same.trans points⟩

end Besra.InternNeeds
