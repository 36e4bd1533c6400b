import Besra.UrldbTree

/-!
The names under which hosts are filed: the parts of a host in lower case, or the whole of an IP address.
-/
namespace Besra.HostNames
open Lwc NsurlParse CText UrldbTree List

def nameOf (host : List UInt8) : HostName :=
  if hostIsIpAddress host then [insensitive host] else (parts host).map insensitive

/-- A host is the domain `d` or lies below it. -/
def Under (d host : List UInt8) : Prop :=
  insensitive host = insensitive d ∨ ch '.' :: insensitive d <:+ insensitive host

/-- A host that `urldb_add_host` files as a whole and in the search tree it is sought in. -/
def Plain (host : List UInt8) : Prop :=
  hostIsIpAddress host = false → host.length < hostBuffer ∧ ∀ part ∈ parts host, hostIsIpAddress part = false

variable {c : UInt8} {host d s t : List UInt8} {name : HostName} {search : Nat → AaTree HostName} {hosts : Hosts}

theorem dolower_eq_iff (d : UInt8) (caseless : ∀ i : Fin 26, UInt8.ofNat (0x61 + i) = d ↔ UInt8.ofNat (0x41 + i) = d) :
    dolower c = d ↔ c = d :=
  iff_of_eq (dolower_congr (p := fun c => c = d) (fun i => propext (caseless i)) c)

theorem dolower_dot : dolower c = ch '.' ↔ c = ch '.' := dolower_eq_iff _ (by decide)

theorem parts_insensitive (host : List UInt8) : parts (insensitive host) = (parts host).map insensitive := by
  induction host with
  | nil => rfl
  | cons c host ih =>
    rw [insensitive, map_cons, ← insensitive, parts, parts, splitOn_cons_eq_if_modifyHead,
      splitOn_cons_eq_if_modifyHead]
    rw [parts, parts] at ih
    by_cases dot : c = ch '.'
    · rw [if_pos (by simp [dolower_dot, dot]), if_pos (by simp [dot]), ih]
      rfl
    · rw [if_neg (by simp [dolower_dot, dot]), if_neg (by simp [dot]), ih]
      rcases host.splitOn (ch '.') with _ | ⟨first, more⟩ <;> rfl

theorem parts_ne_nil (host : List UInt8) : parts host ≠ [] := splitOn_ne_nil _ _

theorem nameOf_ne_nil (host : List UInt8) : nameOf host ≠ [] := by
  unfold nameOf
  split
  · simp
  · simpa using parts_ne_nil host

theorem intercalate_nameOf (host : List UInt8) : [ch '.'].intercalate (nameOf host) = insensitive host := by
  unfold nameOf
  split
  · simp [List.intercalate]
  · rw [← parts_insensitive, parts, intercalate_splitOn]

theorem insensitive_of_nameOf (same : nameOf d = nameOf host) : insensitive d = insensitive host := by
  rw [← intercalate_nameOf d, same, intercalate_nameOf]

theorem intercalate_append (before : HostName) (nonempty : name ≠ []) (first : before ≠ []) :
    ch '.' :: [ch '.'].intercalate name <:+ [ch '.'].intercalate (before ++ name) := by
  induction before with
  | nil => exact absurd rfl first
  | cons part before ih =>
    rw [cons_append, intercalate_cons_of_ne_nil (by simp [nonempty])]
    rcases before with _ | ⟨next, before⟩
    · exact ⟨part, by simp⟩
    · exact (ih (by simp)).trans (suffix_append _ _)

theorem under_of_suffix (ends : nameOf d <:+ nameOf host) : Under d host := by
  obtain ⟨before, same⟩ := ends
  rw [Under, ← intercalate_nameOf d, ← intercalate_nameOf host, ← same]
  by_cases whole : before = []
  · left
    rw [whole, nil_append]
  · exact .inr (intercalate_append before (nameOf_ne_nil d) whole)

theorem compare_take (s t : List UInt8) (rest : Ordering) :
    (match compare (s.take t.length) t with
      | .eq => if s.length > t.length then .gt else if s.length < t.length then .lt else rest
      | different => different) = (compare s t).then rest := by
  induction t generalizing s with
  | nil =>
    rcases s with _ | ⟨a, s⟩
    · rfl
    · rfl
  | cons b t ih =>
    rcases s with _ | ⟨a, s⟩
    · rfl
    · rw [length_cons, length_cons, take_succ_cons, List.compare_cons_cons, List.compare_cons_cons]
      rcases compare a b
      · rfl
      · simp only [Ordering.eq_then, gt_iff_lt, Nat.add_lt_add_iff_right]
        exact ih s
      · rfl

theorem matchParts_eq (name : HostName) (labels : List (List UInt8)) :
    matchParts name labels = compare (name.map insensitive) (labels.map insensitive) := by
  induction name generalizing labels with
  | nil => rcases labels with _ | ⟨b, labels⟩ <;> rfl
  | cons a name ih =>
    rcases labels with _ | ⟨b, labels⟩
    · rfl
    · have cut : strncasecmp a b b.length = compare ((insensitive a).take (insensitive b).length) (insensitive b) := by
        simp only [strncasecmp, strcasecmp, take_length, insensitive, map_take, length_map]
      have lengths : ∀ s : List UInt8, s.length = (insensitive s).length := fun s => (length_map _).symm
      rw [matchParts, cut, ih, lengths a, lengths b, map_cons, map_cons, List.compare_cons_cons]
      exact compare_take (insensitive a) (insensitive b) (compare (name.map insensitive) (labels.map insensitive))

theorem dot_notMem_part {part : List UInt8} (member : part ∈ parts host) : ch '.' ∉ part := by
  induction host generalizing part with
  | nil =>
    rw [parts, splitOn_nil, mem_singleton] at member
    simp [member]
  | cons c host ih =>
    rw [parts, splitOn_cons_eq_if_modifyHead] at member
    by_cases dot : c = ch '.'
    · rw [if_pos (by simp [dot])] at member
      rcases mem_cons.mp member with rfl | later
      · simp
      · exact ih later
    · rw [if_neg (by simp [dot])] at member
      rcases split : host.splitOn (ch '.') with _ | ⟨first, more⟩
      · simp [split] at member
      · rw [split, modifyHead_cons] at member
        have inside : ∀ p ∈ first :: more, ch '.' ∉ p := by
          intro p there
          exact ih (by rw [parts, split]; exact there)
        rcases mem_cons.mp member with rfl | later
        · rw [mem_cons, not_or]
          exact ⟨fun same => dot same.symm, inside first mem_cons_self⟩
        · exact inside part (mem_cons_of_mem _ later)

theorem byteAt_insensitive (s : List UInt8) (i : Nat) : byteAt (insensitive s) i = dolower (byteAt s i) := by
  rw [byteAt, byteAt, insensitive, getD_eq_getElem?_getD, getD_eq_getElem?_getD, List.getElem?_map]
  rcases s[i]? with _ | c <;> rfl

theorem takeWhile_insensitive {p : UInt8 → Bool} (caseless : ∀ c, p (dolower c) = p c) (s : List UInt8) :
    (insensitive s).takeWhile p = insensitive (s.takeWhile p) := by
  rw [insensitive, takeWhile_map]
  congr 2
  funext c
  exact caseless c

theorem insensitive_of_digits (digits : ∀ c ∈ s, isDigit c = true) : insensitive s = s := by
  have letters : ∀ i : Fin 26, isDigit (UInt8.ofNat (0x41 + i)) = false := by decide
  have same : ∀ c, isDigit c = true → dolower c = c := by
    intro c digit
    rcases dolower_cases c with same | ⟨i, rfl, -⟩
    · exact same
    · rw [letters i] at digit
      cases digit
  rw [insensitive, map_congr_left (fun c member => same c (digits c member)), map_id']

theorem hexToValue_dolower (c : UInt8) : hexToValue (dolower c) = hexToValue c :=
  dolower_congr (by decide) c

theorem isDigit_dolower (c : UInt8) : isDigit (dolower c) = isDigit c :=
  dolower_congr (by decide) c

theorem isSpace_dolower (c : UInt8) : isSpace (dolower c) = isSpace c :=
  dolower_congr (by decide) c

theorem strtoul_insensitive (s : List UInt8) :
    strtoul (insensitive s) = ((strtoul s).1, insensitive (strtoul s).2) := by
  have zero : ∀ c, dolower c = ch '0' ↔ c = ch '0' := fun c => dolower_eq_iff _ (by decide)
  have cross : ∀ c, dolower c = ch 'x' ∨ dolower c = ch 'X' ↔ c = ch 'x' ∨ c = ch 'X' := fun c =>
    iff_of_eq (dolower_congr (p := fun c => c = ch 'x' ∨ c = ch 'X') (by decide) c)
  have sign : (insensitive s).take 2 = lit "0x" ∨ (insensitive s).take 2 = lit "0X" ↔
      s.take 2 = lit "0x" ∨ s.take 2 = lit "0X" := by
    rw [show lit "0x" = [ch '0', ch 'x'] from rfl, show lit "0X" = [ch '0', ch 'X'] from rfl]
    rcases s with _ | ⟨a, _ | ⟨b, rest⟩⟩
    · rfl
    · simp [insensitive]
    · simp only [insensitive, map_cons, take_succ_cons, take_zero, List.cons.injEq, and_true]
      rw [← and_or_left, ← and_or_left, zero, cross]
  have hexDigit : ∀ c, (fun c => (hexToValue c).isSome) (dolower c) = (fun c => (hexToValue c).isSome) c := by
    intro c
    dsimp only
    rw [hexToValue_dolower]
  have hexValue : ∀ t n, (insensitive t).foldl (fun n c => 16 * n + ((hexToValue c).getD 0).toNat) n =
      t.foldl (fun n c => 16 * n + ((hexToValue c).getD 0).toNat) n := by
    intro t n
    rw [insensitive, foldl_map]
    simp only [hexToValue_dolower]
  have dropped : ∀ (t : List UInt8) n, (insensitive t).drop n = insensitive (t.drop n) := by
    intro t n
    rw [insensitive, insensitive, map_drop]
  have lengths : ∀ t : List UInt8, (insensitive t).length = t.length := fun t => length_map _
  unfold strtoul
  dsimp only
  simp only [sign, dropped, byteAt_insensitive, hexToValue_dolower]
  split
  · dsimp only
    rw [takeWhile_insensitive hexDigit, hexValue, lengths]
  · have decimalDigit : ∀ base c, (fun c => isDigit c && decide ((c - ch '0').toNat < base)) (dolower c) =
        (fun c => isDigit c && decide ((c - ch '0').toNat < base)) c := by
      intro base c
      dsimp only
      rw [isDigit_dolower]
      by_cases digit : isDigit c = true
      · rw [show dolower c = c from head_eq_of_cons_eq (insensitive_of_digits (s := [c]) (by simpa using digit))]
      · simp [digit]
    dsimp only
    rw [takeWhile_insensitive (decimalDigit _), lengths]
    have digits : ∀ {base : Nat}, ∀ c ∈ s.takeWhile (fun c => isDigit c && decide ((c - ch '0').toNat < base)),
        isDigit c = true := by
      intro base c member
      have this := mem_takeWhile_imp member
      rw [Bool.and_eq_true] at this
      exact this.1
    simp only [zero]
    rw [insensitive_of_digits digits]

theorem inetAtonParts_insensitive (more : Nat) (s : List UInt8) :
    inetAtonParts more (insensitive s) = inetAtonParts more s := by
  induction more generalizing s with
  | zero =>
    rw [inetAtonParts.eq_def, inetAtonParts.eq_def]
    dsimp only
    rw [byteAt_insensitive, isDigit_dolower, strtoul_insensitive]
    rcases strtoul s with ⟨value, _ | ⟨c, rest⟩⟩
    · rfl
    · simp only [insensitive, map_cons, isSpace_dolower]
  | succ more ih =>
    rw [inetAtonParts.eq_def, inetAtonParts.eq_def]
    dsimp only
    rw [byteAt_insensitive, isDigit_dolower, strtoul_insensitive]
    rcases strtoul s with ⟨value, _ | ⟨c, rest⟩⟩
    · rfl
    · have after := ih rest
      simp only [insensitive, map_cons, isSpace_dolower, dolower_dot] at after ⊢
      rw [after]

theorem inetPton4_insensitive (s : List UInt8) : inetPton4 (insensitive s) = inetPton4 s := by
  have parts := parts_insensitive s
  unfold UrldbTree.parts at parts
  unfold inetPton4
  dsimp only
  rw [parts, length_map, all_map]
  congr 2
  funext part
  have digits : (insensitive part).all isDigit = part.all isDigit := by
    rw [insensitive, all_map]
    congr 1
    funext c
    exact isDigit_dolower c
  have same : part.all isDigit = true → insensitive part = part := fun all =>
    insensitive_of_digits (all_eq_true.mp all)
  rw [Function.comp_apply, digits]
  rcases all : part.all isDigit
  · simp
  · rw [same all]

theorem inetPton6Loop_insensitive (groups : Nat) (colon : Bool) (digits : Nat) (token s : List UInt8) :
    inetPton6Loop groups colon digits (insensitive token) (insensitive s) =
      inetPton6Loop groups colon digits token s := by
  induction s generalizing groups colon digits token with
  | nil => rfl
  | cons c s ih =>
    have colonIff : dolower c = ch ':' ↔ c = ch ':' := dolower_eq_iff _ (by decide)
    have empty : insensitive s = [] ↔ s = [] := map_eq_nil_iff
    rw [insensitive.eq_def (c :: s), map_cons, ← insensitive, inetPton6Loop, inetPton6Loop]
    simp only [hexToValue_dolower, colonIff, dolower_dot, empty, ih, inetPton4_insensitive, ne_eq]

theorem inetPton6_insensitive (s : List UInt8) : inetPton6 (insensitive s) = inetPton6 s := by
  rcases s with _ | ⟨c, s⟩
  · rfl
  · have colonIff : ∀ b, dolower b = ch ':' ↔ b = ch ':' := fun b => dolower_eq_iff _ (by decide)
    have whole := inetPton6Loop_insensitive 0 false 0 (c :: s) (c :: s)
    have after := inetPton6Loop_insensitive 0 false 0 s s
    rw [insensitive.eq_def (c :: s), map_cons, ← insensitive] at whole ⊢
    rw [inetPton6, inetPton6]
    simp only [colonIff, byteAt_insensitive, whole, after]

theorem hostIsIpAddress_insensitive (host : List UInt8) : hostIsIpAddress (insensitive host) = hostIsIpAddress host := by
  have slash : ∀ c, decide (dolower c ≠ ch '/') = decide (c ≠ ch '/') := fun c =>
    dolower_congr (p := fun c => decide (c ≠ ch '/')) (by decide) c
  have allowed : ∀ c, (lit "0123456789abcdefABCDEF[].:").contains (dolower c) =
      (lit "0123456789abcdefABCDEF[].:").contains c := fun c =>
    dolower_congr (p := fun c => (lit "0123456789abcdefABCDEF[].:").contains c) (by decide) c
  have opening : ∀ c, dolower c = ch '[' ↔ c = ch '[' := fun c => dolower_eq_iff _ (by decide)
  have chars : ∀ s : List UInt8, (insensitive s).all ((lit "0123456789abcdefABCDEF[].:").contains ·) =
      s.all ((lit "0123456789abcdefABCDEF[].:").contains ·) := by
    intro s
    rw [insensitive, all_map]
    congr 1
    funext c
    exact allowed c
  have closing : ∀ s : List UInt8, (insensitive s).getLast? = some (ch ']') ↔ s.getLast? = some (ch ']') := by
    intro s
    rw [insensitive, List.getLast?_map]
    rcases s.getLast? with _ | c
    · simp
    · rw [Option.map_some, Option.some_inj, Option.some_inj]
      exact dolower_eq_iff _ (by decide)
  have dots : ∀ s : List UInt8, (insensitive s).count (ch '.') = s.count (ch '.') := by
    intro s
    rw [insensitive, count_eq_countP, count_eq_countP, countP_map]
    congr 1
    funext c
    simp [dolower_dot]
  have lengths : ∀ s : List UInt8, (insensitive s).length = s.length := fun s => length_map _
  have inner : ∀ s : List UInt8, (slice (insensitive s) 1 (s.length - 1)).take 63 =
      insensitive ((slice s 1 (s.length - 1)).take 63) := by
    intro s
    simp only [slice, insensitive, map_take, map_drop]
  unfold hostIsIpAddress
  dsimp only
  rw [takeWhile_insensitive slash, chars, inetAton, inetAtonParts_insensitive, ← inetAton, dots, lengths, byteAt_insensitive,
    inner, inetPton6_insensitive]
  simp only [opening, closing]

theorem hostIsIpAddress_congr (same : insensitive s = insensitive t) : hostIsIpAddress s = hostIsIpAddress t := by
  rw [← hostIsIpAddress_insensitive, same, hostIsIpAddress_insensitive]

theorem nameOf_congr (same : insensitive s = insensitive t) : nameOf s = nameOf t := by
  unfold nameOf
  rw [hostIsIpAddress_congr same, same, ← parts_insensitive, ← parts_insensitive, same]

theorem plain_of_under (plain : Plain host) (name : hostIsIpAddress host = false) (under : Under d host) : Plain d := by
  obtain ⟨short, noIp⟩ := plain name
  have lengths : ∀ s : List UInt8, (insensitive s).length = s.length := fun s => length_map _
  have contained : ∀ part ∈ parts (insensitive d), part ∈ parts (insensitive host) := by
    intro part member
    rcases under with same | ⟨before, same⟩
    · rw [same]
      exact member
    · rw [← same, parts, splitOn_append_cons_self]
      exact mem_append_right _ member
  refine fun _ => ⟨?_, ?_⟩
  · rcases under with same | below
    · rw [← lengths d, ← same, lengths]
      exact short
    · have := below.length_le
      rw [length_cons, lengths, lengths] at this
      omega
  · intro part member
    have lowered : insensitive part ∈ parts (insensitive host) := by
      apply contained
      rw [parts_insensitive]
      exact mem_map_of_mem member
    rw [parts_insensitive] at lowered
    obtain ⟨part', member', same⟩ := mem_map.mp lowered
    rw [hostIsIpAddress_congr same.symm]
    exact noIp part' member'

/-- The search trees hold names in lower case and in order; the one for IP addresses holds names of one part. -/
structure Filed (search : Nat → AaTree HostName) : Prop where
  lower : ∀ i, ∀ name ∈ (search i).toList, name.map insensitive = name
  single : ∀ name ∈ (search 0).toList, ∃ part, name = [part]
  ordered : ∀ i, (search i).Ordered

theorem filed_empty : Filed (fun _ => .empty) where
  lower := fun _ _ member => absurd member (by simp [AaTree.toList])
  single := fun _ member => absurd member (by simp [AaTree.toList])
  ordered := fun _ => AaTree.ordered_empty

theorem lower_nameOf (host : List UInt8) : (nameOf host).map insensitive = nameOf host := by
  unfold nameOf
  split
  · simp
  · rw [map_map]
    exact map_congr_left (fun part _ => insensitive_idem part)

theorem searchMatchString_eq (filed : Filed search) (member : name ∈ (search (getSearchTree host)).toList) :
    searchMatchString host name = compare name (nameOf host) := by
  unfold searchMatchString nameOf
  by_cases ip : hostIsIpAddress host = true
  · have zero : getSearchTree host = 0 := by simp [getSearchTree, ip]
    rw [zero] at member
    obtain ⟨part, rfl⟩ := filed.single name member
    have lower := filed.lower 0 _ member
    rw [map_singleton, List.cons.injEq] at lower
    rw [if_pos ip, if_pos ip, headD_cons, strcasecmp, lower.1]
    rw [List.compare_cons_cons, List.compare_nil_nil, Ordering.then_eq]
  · rw [if_neg ip, if_neg ip, matchParts_eq, filed.lower _ name member]

theorem searchFind_eq (filed : Filed search) (found : searchFind (search (getSearchTree host)) host = some name) :
    name = nameOf host := by
  obtain ⟨member, same⟩ := AaTree.find_eq_some found
  rw [searchMatchString_eq filed member] at same
  exact Std.LawfulEqOrd.compare_eq_iff_eq.mp same

theorem searchFind_of_mem (filed : Filed search) (member : nameOf host ∈ (search (getSearchTree host)).toList) :
    searchFind (search (getSearchTree host)) host = some (nameOf host) :=
  AaTree.find_of_mem (filed.ordered _) member (fun _ inside => searchMatchString_eq filed inside)

theorem filed_index (filed : Filed hosts.search) {i : Nat} (lower : name.map insensitive = name)
    (single : i = 0 → ∃ part, name = [part]) : Filed (hosts.index i name) := by
  have members : ∀ j, ∀ other ∈ (hosts.index i name j).toList, (j = i ∧ other = name) ∨ other ∈ (hosts.search j).toList := by
    intro j other inside
    unfold Hosts.index at inside
    by_cases same : j = i
    · subst same
      rw [Function.update_self] at inside
      rcases AaTree.mem_insert.mp inside with new | old
      · exact .inl ⟨rfl, new⟩
      · exact .inr old
    · rw [Function.update_of_ne same] at inside
      exact .inr inside
  constructor
  · intro j other inside
    rcases members j other inside with ⟨-, rfl⟩ | old
    · exact lower
    · exact filed.lower j other old
  · intro other inside
    rcases members 0 other inside with ⟨zero, rfl⟩ | old
    · exact single zero.symm
    · exact filed.single other old
  · intro j
    unfold Hosts.index
    by_cases same : j = i
    · subst same
      rw [Function.update_self]
      exact AaTree.ordered_insert (filed.ordered j)
    · rw [Function.update_of_ne same]
      exact filed.ordered j

theorem getSearchTree_ne_zero (name : hostIsIpAddress host = false) : getSearchTree host ≠ 0 := by
  unfold getSearchTree
  rw [name]
  split
  · contradiction
  · split <;> omega

theorem headD_mem_parts (host : List UInt8) : (parts host).headD [] ∈ parts host := by
  rcases same : parts host with _ | ⟨first, more⟩
  · exact absurd same (parts_ne_nil host)
  · exact mem_cons_self

theorem addHost_name (plain : Plain host) : (addHost hosts host).2 = nameOf host := by
  unfold addHost nameOf
  by_cases ip : hostIsIpAddress host = true
  · rw [if_pos ip, if_pos ip]
    dsimp only
    split <;> rfl
  · rw [if_neg ip, if_neg ip]
    obtain ⟨short, -⟩ := plain (by simpa using ip)
    rw [take_of_length_le (by unfold hostBuffer at short ⊢; omega)]

theorem filed_addHost (filed : Filed hosts.search) (plain : Plain host) : Filed (addHost hosts host).1.search := by
  have lower := lower_nameOf host
  unfold addHost
  unfold nameOf at lower
  by_cases ip : hostIsIpAddress host = true
  · rw [if_pos ip] at lower ⊢
    dsimp only
    split
    · exact filed
    · exact filed_index filed lower (fun _ => ⟨_, rfl⟩)
  · rw [if_neg ip] at lower ⊢
    obtain ⟨short, noIp⟩ := plain (by simpa using ip)
    rw [take_of_length_le (by unfold hostBuffer at short ⊢; omega)]
    exact filed_index filed lower (fun zero => absurd zero (getSearchTree_ne_zero (noIp _ (headD_mem_parts host))))

end Besra.HostNames
