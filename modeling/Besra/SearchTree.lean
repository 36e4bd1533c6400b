import Besra.SearchNodes

/-!
Sequences of `urldb_search_insert` on one tree. `Inserted` says what a tree is then: a balanced, ordered tree of
exactly the hosts that were inserted, with the sentinel as it was.
-/
namespace Besra.SearchTree
open Lwc NsurlParse CText HostNames SearchNodes List
open UrldbTree hiding searchFind

/-- A search tree with its nodes; the nodes are numbered as they are allocated. -/
structure Search where
  heap : Heap := fun p => if p = empty then some sentinel else none
  allocated : Nat := 0
  root : Ptr := empty

/-- `urldb_search_insert`, after which its callers keep the root they had where the allocation failed. -/
def searchInsert (s : Search) (data : HostNode) (malloc : Bool) : Option Search :=
  if malloc then do
    let n := s.allocated + 1
    let heap := write s.heap n ⟨some data, 1, empty, empty⟩
    let (heap, root) ← searchInsertInternal (n + 1) heap s.root n
    return ⟨heap, n, root⟩
  else some s

/-- The hosts that are inserted, and whether there was memory for the node. -/
abbrev Calls := List (HostNode × Bool)

def run (calls : Calls) : Option Search := calls.foldlM (fun s call => searchInsert s call.1 call.2) {}

/-- The host that `urldb_add_host` makes for a name. -/
def hostOf (name : List UInt8) : HostNode :=
  if hostIsIpAddress name then ⟨name, []⟩ else ⟨(parts name).headD [], (parts name).tail⟩

/-- `urldb_search_find` gives a host if and only if the one of this name was inserted, and then that one. -/
def Finds (s : Search) (calls : Calls) (name : List UInt8) : Prop :=
  ∃ found, searchFind (s.allocated + 1) s.heap s.root name = some found ∧
    (∀ h, found = some h → searchMatchHost h (hostOf name) = .eq) ∧
    (found.isSome ↔ ∃ h, (h, true) ∈ calls ∧ searchMatchHost h (hostOf name) = .eq)

/-- The first part of a host is the name of an IP address, and it has more parts. -/
def Clash (h : HostNode) (name : List UInt8) : Prop :=
  hostIsIpAddress name = true ∧ strcasecmp h.part name = .eq ∧ h.above ≠ []

theorem key_hostOf (name : List UInt8) : (hostOf name).key = nameOf name := by
  unfold hostOf nameOf
  split
  · rfl
  · obtain ⟨first, more, split⟩ := exists_cons_of_ne_nil (parts_ne_nil name)
    rw [split]
    rfl

theorem searchMatchHost_hostOf (h : HostNode) (name : List UInt8) :
    searchMatchHost h (hostOf name) = compare h.key (nameOf name) := by
  rw [← key_hostOf]
  exact compare_eq h (hostOf name)

variable {name : List UInt8} {calls : Calls} {s : Search} {t : AaTree Entry} {h : HostNode} {fuel : Nat} {heap : Heap}

theorem searchMatchString_ip (ip : hostIsIpAddress name = true) (h : HostNode) :
    searchMatchString name h.name = strcasecmp h.part name := by
  rw [searchMatchString, if_pos ip]
  rfl

theorem searchMatchString_iff (h : HostNode) (name : List UInt8) :
    searchMatchString name h.name = searchMatchHost h (hostOf name) ↔ ¬Clash h name := by
  rw [searchMatchHost_hostOf]
  by_cases ip : hostIsIpAddress name = true
  · have parts : strcasecmp h.part name = compare (insensitive h.part) (insensitive name) := rfl
    have whole : compare h.key (nameOf name) =
        (strcasecmp h.part name).then (compare (h.above.map insensitive) []) := by
      rw [nameOf, if_pos ip, parts]
      exact List.compare_cons_cons
    rw [searchMatchString_ip ip, whole, Clash, not_and, not_and, not_not]
    rcases strcasecmp h.part name
    · exact ⟨fun _ _ equal => (nomatch equal), fun _ => rfl⟩
    · rcases h.above with _ | ⟨next, above⟩
      · exact ⟨fun _ _ _ => rfl, fun _ => rfl⟩
      · exact ⟨fun equal => (nomatch equal), fun none' => (nomatch none' ip rfl)⟩
    · exact ⟨fun _ _ equal => (nomatch equal), fun _ => rfl⟩
  · rw [searchMatchString, if_neg ip, matchParts_eq, nameOf, if_neg ip]
    exact ⟨fun _ clash => ip clash.1, fun _ => rfl⟩

theorem searchMatchString_monotone (ip : hostIsIpAddress name = true) {d e : HostNode} (less : compare d e = .lt) :
    (searchMatchString name d.name = .gt → searchMatchString name e.name = .gt) ∧
    (searchMatchString name e.name = .lt → searchMatchString name d.name = .lt) := by
  have first : compare (insensitive d.part) (insensitive e.part) = .lt ∨ insensitive d.part = insensitive e.part := by
    rw [compare_eq] at less
    have split : (compare (insensitive d.part) (insensitive e.part)).then
        (compare (d.above.map insensitive) (e.above.map insensitive)) = .lt := by
      rw [← less]
      exact List.compare_cons_cons.symm
    rcases parts : compare (insensitive d.part) (insensitive e.part)
    · exact .inl rfl
    · exact .inr (Std.LawfulEqOrd.compare_eq_iff_eq.mp parts)
    · rw [parts] at split
      cases split
  rw [searchMatchString_ip ip, searchMatchString_ip ip, strcasecmp, strcasecmp]
  rcases first with below | same
  · refine ⟨fun greater => ?_, fun greater => Std.TransCmp.lt_trans below greater⟩
    exact Std.TransCmp.gt_trans (Std.OrientedCmp.gt_of_lt below) greater
  · rw [same]
    exact ⟨id, id⟩

/-- What the calls so far have made of the tree. -/
structure Inserted (calls : Calls) (s : Search) (t : AaTree Entry) : Prop where
  root : s.root = rootOf t
  holds : Holds s.heap t
  intact : s.heap empty = some sentinel
  nodup : (ptrs t).Nodup
  used : ∀ p ∈ ptrs t, p ≤ s.allocated
  few : t.toList.length ≤ s.allocated
  balanced : t.Balanced
  ordered : t.toList.Pairwise (fun d e => searchMatchHost d.data e.data = .lt)
  called : ∀ e ∈ t.toList, (e.data, true) ∈ calls
  complete : ∀ h, (h, true) ∈ calls → ∃ e ∈ t.toList, searchMatchHost e.data h = .eq

theorem inserted_start : Inserted [] {} .empty where
  root := rfl
  holds := trivial
  intact := rfl
  nodup := nodup_nil
  used := fun _ member => absurd member not_mem_nil
  few := Nat.le_refl 0
  balanced := trivial
  ordered := List.Pairwise.nil
  called := fun _ member => absurd member not_mem_nil
  complete := fun _ member => absurd member not_mem_nil

theorem inserted_new (inserted : Inserted calls s t) (h : HostNode) :
    ∃ s', searchInsert s h true = some s' ∧
      Inserted (calls ++ [(h, true)]) s' (t.insert ⟨s.allocated + 1, h⟩) := by
  let n : Entry := ⟨s.allocated + 1, h⟩
  let node : SearchNode := ⟨some h, 1, empty, empty⟩
  have fresh : n.ptr ∉ ptrs t := fun member => Nat.not_succ_le_self _ (inserted.used _ member)
  have real : n.ptr ≠ empty := Nat.succ_ne_zero _
  have written : ∀ p ∈ ptrs t, write s.heap n.ptr node p = s.heap p := fun p member =>
    write_of_ne (fun same : p = n.ptr => fresh (same ▸ member)) node
  have intact : write s.heap n.ptr node empty = some sentinel := by
    rw [write_of_ne real.symm, inserted.intact]
  obtain ⟨heap, result, holds, others⟩ := searchInsertInternal_spec intact (holds_congr inserted.holds written)
    inserted.balanced inserted.nodup fresh real (write_self s.heap n.ptr node)
    (Nat.lt_succ_of_le (Nat.le_succ_of_le inserted.few))
  have made : searchInsert s h true = some ⟨heap, n.ptr, rootOf (t.insert n)⟩ := by
    rw [searchInsert, if_pos rfl, inserted.root]
    simp only [Option.bind_eq_bind]
    rw [result]
    rfl
  refine ⟨_, made, ?_⟩
  constructor
  case root => rfl
  case holds => exact holds
  case intact =>
    have out : empty ∉ ptrs t := fun member => ne_empty_of_mem inserted.holds member rfl
    exact (others empty out real.symm).trans intact
  case nodup =>
    have grown := @nodup_insert n t [] [] (by simpa using inserted.nodup) (by simpa using fresh)
    simpa using grown
  case used =>
    intro p member
    rcases mem_ptrs_insert member with rfl | old
    · exact Nat.le_refl _
    · exact Nat.le_succ_of_le (inserted.used p old)
  case few =>
    rcases AaTree.toList_insert n t with same | ⟨l, r, whole, put⟩
    · rw [same]
      exact Nat.le_succ_of_le inserted.few
    · have few := inserted.few
      rw [whole, length_append] at few
      rw [put, length_append, length_cons]
      exact Nat.succ_le_succ few
  case balanced => exact (AaTree.balanced_insert inserted.balanced).1
  case ordered => exact AaTree.ordered_insert (n := n) inserted.ordered
  case called =>
    intro e member
    rw [mem_append, mem_singleton]
    rcases AaTree.mem_of_mem_insert member with rfl | old
    · exact .inr rfl
    · exact .inl (inserted.called e old)
  case complete =>
    intro other member
    rw [mem_append, mem_singleton] at member
    rcases member with before | last
    · obtain ⟨e, inside, equal⟩ := inserted.complete other before
      exact ⟨e, AaTree.mem_insert_of_mem inside, equal⟩
    · cases last
      exact AaTree.exists_eq_of_insert n t

theorem inserted_failed (inserted : Inserted calls s t) (h : HostNode) : Inserted (calls ++ [(h, false)]) s t := by
  refine { inserted with called := fun e member => ?_, complete := fun other member => ?_ }
  · exact mem_append_left _ (inserted.called e member)
  · rw [mem_append, mem_singleton] at member
    rcases member with before | last
    · exact inserted.complete other before
    · cases last

theorem inserted_run (calls : Calls) : ∃ s t, run calls = some s ∧ Inserted calls s t := by
  induction calls using List.reverseRecOn with
  | nil => exact ⟨{}, .empty, rfl, inserted_start⟩
  | append_singleton calls call ih =>
    obtain ⟨s, t, result, inserted⟩ := ih
    have last : run (calls ++ [call]) = searchInsert s call.1 call.2 := by
      rw [run, foldlM_append]
      rw [run] at result
      rw [result]
      simp
    rw [last]
    obtain ⟨h, malloc⟩ := call
    rcases malloc
    · exact ⟨s, t, rfl, inserted_failed inserted h⟩
    · obtain ⟨s', made, inserted'⟩ := inserted_new inserted h
      exact ⟨s', _, made, inserted'⟩

theorem once (inserted : Inserted calls s t) (called : (h, true) ∈ calls) :
    ∃! e, e ∈ t.toList ∧ searchMatchHost e.data h = .eq := by
  obtain ⟨e, inside, equal⟩ := inserted.complete h called
  refine ⟨e, ⟨inside, equal⟩, fun other ⟨there, equal'⟩ => ?_⟩
  have back : compare h e.data = .eq := Std.OrientedCmp.eq_symm equal
  have same : compare other.data e.data = .eq := Std.TransCmp.eq_trans equal' back
  exact AaTree.eq_of_compare inserted.ordered there inside same

theorem searchFind_down (holds : Holds heap t) (enough : t.height < fuel) (name : List UInt8) :
    searchFind fuel heap (rootOf t) name =
      some ((t.find (fun e => searchMatchString name e.data.name)).map Entry.data) := by
  induction t generalizing fuel with
  | empty =>
    obtain ⟨fuel, rfl⟩ := Nat.exists_eq_add_one.mpr enough
    rfl
  | node lv l d r ihl ihr =>
    obtain ⟨fuel, rfl⟩ := Nat.exists_eq_add_one.mpr (Nat.zero_lt_of_lt enough)
    obtain ⟨real, here, left, right⟩ := holds
    rw [AaTree.height] at enough
    have root : rootOf (.node lv l d r) = d.ptr := rfl
    rw [root, searchFind, if_neg real, here, AaTree.find]
    simp only [Option.bind_eq_bind, Option.bind_some]
    rcases searchMatchString name d.data.name
    · exact ihr right (by omega)
    · rfl
    · exact ihl left (by omega)

theorem searchFind_spec (holds : Holds heap t) (enough : t.toList.length < fuel) (name : List UInt8) :
    searchFind fuel heap (rootOf t) name =
      some ((t.find (fun e => searchMatchString name e.data.name)).map Entry.data) :=
  searchFind_down holds (Nat.lt_of_le_of_lt (AaTree.height_le_length t) enough) name

theorem finds_of_apart (inserted : Inserted calls s t) (apart : ∀ h, (h, true) ∈ calls → ¬Clash h name) :
    Finds s calls name := by
  have agrees : ∀ e ∈ t.toList, searchMatchString name e.data.name = searchMatchHost e.data (hostOf name) :=
    fun e inside => (searchMatchString_iff e.data name).mpr (apart e.data (inserted.called e inside))
  have result := searchFind_spec inserted.holds (Nat.lt_succ_of_le inserted.few) name
  rw [← inserted.root] at result
  refine ⟨_, result, ?_, ?_, ?_⟩
  · intro h found
    obtain ⟨e, there, rfl⟩ := Option.map_eq_some_iff.mp found
    obtain ⟨inside, equal⟩ := AaTree.find_eq_some there
    rw [← agrees e inside]
    exact equal
  · intro some'
    rw [Option.isSome_map] at some'
    obtain ⟨e, found⟩ := Option.isSome_iff_exists.mp some'
    obtain ⟨inside, equal⟩ := AaTree.find_eq_some found
    exact ⟨e.data, inserted.called e inside, by rw [← agrees e inside]; exact equal⟩
  · rintro ⟨h, called, equal⟩
    obtain ⟨e, inside, same⟩ := inserted.complete h called
    have there : compare e.data (hostOf name) = .eq := Std.TransCmp.eq_trans same equal
    have seek : ∀ e' ∈ t.toList, searchMatchString name e'.data.name = compare e' e := fun e' inside' =>
      (agrees e' inside').trans (Std.TransCmp.congr_right there).symm
    rw [AaTree.find_of_mem inserted.ordered inside seek]
    rfl

theorem not_finds_of_clash (inserted : Inserted calls s t) (called : (h, true) ∈ calls) (clash : Clash h name)
    (absent : ∀ h, (h, true) ∈ calls → searchMatchHost h (hostOf name) ≠ .eq) : ¬Finds s calls name := by
  rintro ⟨found, result, -, exactly⟩
  obtain ⟨ip, first, -⟩ := clash
  obtain ⟨e, inside, equal⟩ := inserted.complete h called
  have some' : (t.find (fun e => searchMatchString name e.data.name)).isSome := by
    refine AaTree.find_isSome inserted.ordered (fun d e less => searchMatchString_monotone ip less) ⟨e, inside, ?_⟩
    have keys : e.data.key = h.key := by
      rw [← Std.LawfulEqOrd.compare_eq_iff_eq (α := HostName), ← compare_eq]
      exact equal
    have parts : insensitive e.data.part = insensitive h.part := (List.cons.inj keys).1
    rw [searchMatchString_ip ip, strcasecmp, parts]
    exact first
  rw [inserted.root, searchFind_spec inserted.holds (Nat.lt_succ_of_le inserted.few) name] at result
  cases result
  rw [Option.isSome_map] at exactly
  obtain ⟨other, there, same⟩ := exactly.mp some'
  exact absent other there same

/-- The tree is always a balanced search tree of exactly the hosts that were inserted, and the sentinel is left
    alone. The two comparisons agree except where a host clashes with a name: a search for a name that no host
    clashes with finds the host of that name or nothing, and one for a name that is not in the tree but clashes
    finds another host. -/
theorem searches_exact (calls : Calls) : ∃ s t, run calls = some s ∧ Inserted calls s t ∧
    2 ^ t.level ≤ t.toList.length + 1 ∧
    (∀ h, (h, true) ∈ calls → ∃! e, e ∈ t.toList ∧ searchMatchHost e.data h = .eq) ∧
    ∀ name, (∀ h, searchMatchString name h.name = searchMatchHost h (hostOf name) ↔ ¬Clash h name) ∧
      ((∀ h, (h, true) ∈ calls → ¬Clash h name) → Finds s calls name) ∧
      ((∃ h, (h, true) ∈ calls ∧ Clash h name) →
        (∀ h, (h, true) ∈ calls → searchMatchHost h (hostOf name) ≠ .eq) → ¬Finds s calls name) := by
  obtain ⟨s, t, result, inserted⟩ := inserted_run calls
  refine ⟨s, t, result, inserted, AaTree.two_pow_level_le inserted.balanced, ?_, fun name => ⟨?_, ?_, ?_⟩⟩
  · exact fun h called => once inserted called
  · exact fun h => searchMatchString_iff h name
  · exact fun apart => finds_of_apart inserted apart
  · rintro ⟨h, called, clash⟩ absent
    exact not_finds_of_clash inserted called clash absent

/-- Every search is over after two rounds for each bit of the number of hosts and one more, with what a search of any
    length gives. -/
theorem searches_short (calls : Calls) : ∃ s t, run calls = some s ∧ Inserted calls s t ∧
    ∀ name more, searchFind (2 * (t.toList.length + 1).log2 + 1 + more) s.heap s.root name =
      some ((t.find (fun e => searchMatchString name e.data.name)).map Entry.data) := by
  obtain ⟨s, t, result, inserted⟩ := inserted_run calls
  refine ⟨s, t, result, inserted, fun name more => ?_⟩
  have level : t.level ≤ (t.toList.length + 1).log2 :=
    (Nat.le_log2 (Nat.succ_ne_zero _)).mpr (AaTree.two_pow_level_le inserted.balanced)
  have height := (AaTree.height_le inserted.balanced).1
  rw [inserted.root]
  exact searchFind_down inserted.holds (by omega) name

/-- A search for `[::11]` gives the host `[::11].com`. -/
theorem longer_host_found :
    let calls : Calls := [(⟨lit "[::11]", [lit "com"]⟩, true)]
    ∃ s, run calls = some s ∧
      SearchNodes.searchFind 2 s.heap s.root (lit "[::11]") = some (some ⟨lit "[::11]", [lit "com"]⟩) ∧
      ¬Finds s calls (lit "[::11]") := by
  intro calls
  obtain ⟨s, t, result, inserted⟩ := inserted_run calls
  have called : (⟨lit "[::11]", [lit "com"]⟩, true) ∈ calls := mem_singleton_self _
  refine ⟨s, result, ?_, not_finds_of_clash inserted called ⟨by decide, by decide, by decide⟩ ?_⟩
  · cases result
    decide
  · intro h member
    cases mem_singleton.mp member
    decide

end Besra.SearchTree
