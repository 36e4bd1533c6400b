import Besra.UrldbLookup
import Besra.TreeWalk

/-!
`urldb_iterate_partial` of `netsurf/content/urldb.c`, for a prefix with a path. A path node is known by a pointer; a
pointer is whatever tells the nodes of a tree apart.
-/
namespace Besra.PrefixSearch
open Lwc NsurlParse CText SetCookie UrldbTree Urldb UrldbData List Option
open CookieStore UrldbRun UrldbLookup TreeWalk

section Walker
variable {ν : Type} (data : ν → PathData) (callback : ν → Bool)

/-- The body of `urldb_iterate_entries_path`, with the nodes that were given to the callback so far. Every leaf is
    asserted to have a URL. -/
def entry (p : ν) (leaf : Bool) (calls : List ν) : Option (List ν × Bool) :=
  if leaf then if (data p).url.isSome then some (calls ++ [p], callback p) else none
  else some (calls, true)

/-- `urldb_iterate_entries_path` -/
def iterateEntriesPath (p : ν) (children next : Forest ν) (calls : List ν) : Option (List ν × Bool) :=
  walk (entry data callback) (nodes (.node p children .null)).length ⟨p, children, next, []⟩ calls

/-- `urldb_iterate_partial_path`, from the first child on. -/
def iteratePartialPath : Nat → Forest ν → List UInt8 → List ν → Option (List ν × Bool)
  | _, .null, _, calls => some (calls, true)
  | 0, .node _ _ _, _, _ => none
  | fuel + 1, .node p children next, text, calls =>
    let segment := text.takeWhile (· ≠ ch '/')
    if segment = [] ∧ byteAt text 0 = ch '/' then
      -- "Ignore //"
      iteratePartialPath fuel (.node p children next) text.tail calls
    else if strncasecmp (data p).segment text segment.length = .eq then
      if segment.length = text.length then
        match iterateEntriesPath data callback p children next calls with
        | some (calls, true) => iteratePartialPath fuel next text calls
        | stopped => stopped
      else iteratePartialPath fuel children (text.drop (segment.length + 1)) calls
    else iteratePartialPath fuel next text calls

def upTo : List ν → List ν × Bool
  | [] => ([], true)
  | p :: later => if callback p then (p :: (upTo later).1, (upTo later).2) else ([p], false)

def completeOf (text : List UInt8) : List (List UInt8) := (text.splitOn (ch '/')).dropLast.filter (· ≠ [])

def partialOf (text : List UInt8) : List UInt8 := (text.splitOn (ch '/')).getLastD []

def Begins (text : List UInt8) (p : ν) : Prop := insensitive text <+: insensitive (data p).segment

instance (text : List UInt8) : DecidablePred (Begins data text) :=
  fun p => inferInstanceAs (Decidable (_ <+: insensitive (data p).segment))

/-- The leaves that the walker comes to. -/
def reached : List (List UInt8) → List UInt8 → Forest ν → List ν
  | _, _, .null => []
  | [], last, .node p children next =>
    (if Begins data last p then leaves (.node p children .null) else []) ++ reached [] last next
  | segment :: complete, last, .node p children next =>
    if Begins data segment p then reached complete last children else reached (segment :: complete) last next

end Walker

variable {segment later : List UInt8} {scheme : LwcString} {paths : Forest PathData} {url : Nsurl} {now : Int}
  {c : Cookie} {hosts : Hosts} {sent : Visit → Bool} {ks : List PathKey} {op : UrlOp} {env : Env} {db : Db}

theorem segments_first (plain : ch '/' ∉ segment) :
    (segment ++ ch '/' :: later).splitOn (ch '/') = segment :: later.splitOn (ch '/') :=
  splitOn_append_cons_self_of_not_mem plain later

theorem segments_slash (text : List UInt8) : (ch '/' :: text).splitOn (ch '/') = [] :: text.splitOn (ch '/') := by
  have empty : ch '/' ∉ ([] : List UInt8) := not_mem_nil
  exact segments_first empty

theorem completeOf_slash (text : List UInt8) : completeOf (ch '/' :: text) = completeOf text := by
  rw [completeOf, segments_slash, dropLast_cons_of_ne_nil (splitOn_ne_nil _ _)]
  rfl

theorem completeOf_cons (plain : ch '/' ∉ segment) (some' : segment ≠ []) :
    completeOf (segment ++ ch '/' :: later) = segment :: completeOf later := by
  rw [completeOf, segments_first plain, dropLast_cons_of_ne_nil (splitOn_ne_nil _ _), filter_cons,
    if_pos (decide_eq_true some')]
  rfl

theorem partialOf_cons (plain : ch '/' ∉ segment) : partialOf (segment ++ ch '/' :: later) = partialOf later := by
  obtain ⟨last, is⟩ : ∃ last, (later.splitOn (ch '/')).getLast? = some last :=
    isSome_iff_exists.mp (List.getLast?_isSome.mpr (splitOn_ne_nil _ _))
  rw [partialOf, partialOf, segments_first plain, List.getLastD_eq_getLast?, List.getLastD_eq_getLast?,
    List.getLast?_cons, is]
  rfl

theorem segments_last {text : List UInt8} (plain : ch '/' ∉ text) : completeOf text = [] ∧ partialOf text = text := by
  rw [completeOf, partialOf, splitOn_eq_singleton plain]
  exact ⟨rfl, rfl⟩

theorem text_cases (text : List UInt8) :
    (∃ later, text = ch '/' :: later) ∨
    (ch '/' ∉ text ∧ text.takeWhile (· ≠ ch '/') = text) ∨
    ∃ segment later, text = segment ++ ch '/' :: later ∧ ch '/' ∉ segment ∧ segment ≠ [] ∧
      text.takeWhile (· ≠ ch '/') = segment := by
  induction text with
  | nil => exact .inr (.inl ⟨not_mem_nil, rfl⟩)
  | cons c text ih =>
    by_cases slash : c = ch '/'
    · exact .inl ⟨text, by rw [slash]⟩
    · have goes : (c :: text).takeWhile (· ≠ ch '/') = c :: text.takeWhile (· ≠ ch '/') :=
        takeWhile_cons_of_pos (decide_eq_true slash)
      rw [goes]
      right
      rcases ih with ⟨later, rfl⟩ | ⟨plain, whole⟩ | ⟨segment, later, rfl, plain, some', whole⟩
      · refine .inr ⟨[c], later, rfl, by simpa using Ne.symm slash, cons_ne_nil _ _, ?_⟩
        rw [takeWhile_cons_of_neg (by simp)]
      · exact .inl ⟨by simp [plain, Ne.symm slash], by rw [whole]⟩
      · exact .inr ⟨c :: segment, later, rfl, by simp [plain, Ne.symm slash], cons_ne_nil _ _, by rw [whole]⟩

section Walker
variable {ν : Type} (data : ν → PathData) (callback : ν → Bool)

theorem strncasecmp_begins {segment text : List UInt8} {p : ν} (start : segment <+: text) :
    strncasecmp (data p).segment text segment.length = .eq ↔ Begins data segment p := by
  rw [strncasecmp, strcasecmp_eq_iff, ← prefix_iff_eq_take.mp start, Begins, prefix_iff_eq_take, eq_comm,
    insensitive, insensitive, insensitive, length_map, map_take]

theorem upTo_append (l r : List ν) : upTo callback (l ++ r) =
    if (upTo callback l).2 then ((upTo callback l).1 ++ (upTo callback r).1, (upTo callback r).2)
    else upTo callback l := by
  induction l with
  | nil => simp [upTo]
  | cons p l ih =>
    rw [cons_append, upTo, upTo, ih]
    rcases callback p
    · simp
    · rcases h : (upTo callback l).2 <;> simp [h]

def Claimed (t : Forest ν) : Prop := ∀ p ∈ leaves t, (data p).url.isSome

theorem visit_entry (t : Forest ν) (claimed : Claimed data t) (calls : List ν) :
    visit (entry data callback) (nodes t) calls =
      some (calls ++ (upTo callback (leaves t)).1, (upTo callback (leaves t)).2) := by
  induction t generalizing calls with
  | null => simp [nodes, visit, leaves, lines, upTo]
  | node p children next ihc ihn =>
    have split := leaves_node p children next
    have behind : Claimed data next := fun q member => claimed q (by rw [split]; exact mem_append_right _ member)
    rcases children with _ | ⟨q, cs, next'⟩
    · have own : (data p).url.isSome := claimed p (by rw [split]; exact mem_append_left _ mem_cons_self)
      have first : entry data callback p true calls = some (calls ++ [p], callback p) := by
        rw [entry, if_pos rfl, if_pos own]
      have here : leaves (.node p .null next) = p :: leaves next := rfl
      rw [nodes, visit, first, here, upTo]
      rcases callback p
      · simp
      · simp [ihn behind]
    · rw [leaves_below] at split
      have below : Claimed data (.node q cs next') := fun r member =>
        claimed r (by rw [split]; exact mem_append_left _ member)
      have first : entry data callback p false calls = some (calls, true) := rfl
      rw [nodes, visit, first]
      simp only
      rw [visit_append, ihc below, split, upTo_append]
      rcases h : (upTo callback (leaves (.node q cs next'))).2
      · simp [h]
      · simp [ihn behind]

theorem iterateEntriesPath_eq (p : ν) (children next : Forest ν) (claimed : Claimed data (.node p children .null))
    (calls : List ν) : iterateEntriesPath data callback p children next calls =
      some (calls ++ (upTo callback (leaves (.node p children .null))).1,
        (upTo callback (leaves (.node p children .null))).2) := by
  rw [iterateEntriesPath, walk_from _ p children next calls le_rfl, visit_entry data callback _ claimed]

variable {data} in
theorem Claimed.parts {p : ν} {children next : Forest ν} (claimed : Claimed data (.node p children next)) :
    Claimed data (.node p children .null) ∧ Claimed data children ∧ Claimed data next := by
  have split := leaves_node p children next
  refine ⟨fun q member => ?_, fun q member => ?_, fun q member => ?_⟩
  · exact claimed q (by rw [split]; exact mem_append_left _ member)
  · rcases children with _ | ⟨r, cs, next'⟩
    · exact absurd member not_mem_nil
    · rw [leaves_below] at split
      exact claimed q (by rw [split]; exact mem_append_left _ member)
  · exact claimed q (by rw [split]; exact mem_append_right _ member)

/-- With enough rounds the walker calls the callback for the leaves it comes to, as long as it may. -/
theorem iteratePartialPath_eq (fuel : Nat) (t : Forest ν) (text : List UInt8) (calls : List ν)
    (claimed : Claimed data t) (enough : (values t).length + text.length ≤ fuel) :
    iteratePartialPath data callback fuel t text calls =
      some (calls ++ (upTo callback (reached data (completeOf text) (partialOf text) t)).1,
        (upTo callback (reached data (completeOf text) (partialOf text) t)).2) := by
  induction fuel generalizing t text calls with
  | zero =>
    rcases t with _ | ⟨p, children, next⟩
    · simp [iteratePartialPath, reached, upTo]
    · simp [values] at enough
  | succ fuel ih =>
    rcases t with _ | ⟨p, children, next⟩
    · simp [iteratePartialPath, reached, upTo]
    · obtain ⟨own, below, behind⟩ := claimed.parts
      have size : (values (.node p children next)).length = (values children).length + (values next).length + 1 := by
        rw [values, length_cons, length_append]
      rw [size] at enough
      rw [iteratePartialPath]
      rcases text_cases text with ⟨later, rfl⟩ | ⟨plain, whole⟩ | ⟨segment, later, rfl, plain, some', whole⟩
      · have skip : (ch '/' :: later).takeWhile (· ≠ ch '/') = [] ∧ byteAt (ch '/' :: later) 0 = ch '/' := by
          exact ⟨takeWhile_cons_of_neg (by simp), rfl⟩
        have empty : ch '/' ∉ ([] : List UInt8) := not_mem_nil
        have last : partialOf (ch '/' :: later) = partialOf later := partialOf_cons empty
        rw [if_pos skip, tail_cons, completeOf_slash, last]
        exact ih _ later calls claimed (by rw [size]; rw [length_cons] at enough; omega)
      · obtain ⟨none, last⟩ := segments_last plain
        have here : ¬(text = [] ∧ byteAt text 0 = ch '/') := by
          rintro ⟨rfl, slash⟩
          exact absurd slash (by decide)
        have begins := strncasecmp_begins data (p := p) (prefix_refl text)
        rw [whole, none, last, reached, if_neg here]
        by_cases starts : Begins data text p
        · rw [if_pos (begins.mpr starts), if_pos rfl, if_pos starts, iterateEntriesPath_eq data callback p children next own,
            upTo_append]
          rcases goes : (upTo callback (leaves (.node p children .null))).2
          · simp [goes]
          · have rest := ih next text (calls ++ (upTo callback (leaves (.node p children .null))).1) behind
              (by omega)
            rw [none, last] at rest
            simp [rest]
        · rw [if_neg (fun same => starts (begins.mp same)), if_neg starts, nil_append]
          have rest := ih next text calls behind (by omega)
          rw [none, last] at rest
          exact rest
      · have here : ¬(segment = [] ∧ byteAt (segment ++ ch '/' :: later) 0 = ch '/') := fun both => some' both.1
        have begins := strncasecmp_begins data (p := p) (prefix_append segment (ch '/' :: later))
        have more : ¬segment.length = (segment ++ ch '/' :: later).length := by
          rw [length_append, length_cons]
          omega
        have drop : (segment ++ ch '/' :: later).drop (segment.length + 1) = later := by
          rw [drop_append, drop_of_length_le (Nat.le_succ _), Nat.add_sub_cancel_left]
          rfl
        have shorter : (segment ++ ch '/' :: later).length = segment.length + later.length + 1 := by
          rw [length_append, length_cons, Nat.add_assoc]
        rw [shorter] at enough
        rw [whole, if_neg here, if_neg more, drop, completeOf_cons plain some', partialOf_cons plain, reached]
        by_cases starts : Begins data segment p
        · rw [if_pos (begins.mpr starts), if_pos starts]
          exact ih children later calls below (by omega)
        · rw [if_neg (fun same => starts (begins.mp same)), if_neg starts]
          have rest := ih next (segment ++ ch '/' :: later) calls behind (by rw [shorter]; omega)
          rw [completeOf_cons plain some', partialOf_cons plain] at rest
          exact rest

end Walker

/-- A path has the complete segments in front, ignoring case, and its next segment begins with the last one. -/
def Matches (last : List UInt8) : List (List UInt8) → List (List UInt8) → Prop
  | [], own :: _ => insensitive last <+: insensitive own
  | segment :: complete, own :: path => insensitive own = insensitive segment ∧ Matches last complete path
  | _, [] => False

instance decidableMatches (last : List UInt8) : ∀ complete path, Decidable (Matches last complete path)
  | [], own :: _ => inferInstanceAs (Decidable (insensitive last <+: insensitive own))
  | _ :: complete, _ :: path => @instDecidableAnd _ _ _ (decidableMatches last complete path)
  | [], [] => .isFalse id
  | _ :: _, [] => .isFalse id

section Wanted
variable {ν : Type} (data : ν → PathData)

def pathOf (line : List ν × ν) : List (List UInt8) := (line.1 ++ [line.2]).map (fun p => (data p).segment)

def wanted (complete : List (List UInt8)) (last : List UInt8) (t : Forest ν) : List ν :=
  ((lines t).filter (fun line => Matches last complete (pathOf data line))).map Prod.snd

def DeadEnd : List (List UInt8) → List UInt8 → Forest ν → Prop
  | _, _, .null => True
  | [], last, .node p _ next => ¬Begins data last p ∧ DeadEnd [] last next
  | segment :: complete, last, .node p children next =>
    if Begins data segment p then DeadEnd complete last children else DeadEnd (segment :: complete) last next

/-- At every complete segment, the siblings behind the first one that begins with it lead to no path that matches; and
    where this one has a longer segment, the way down from it is a dead end. -/
def Clear : List (List UInt8) → List UInt8 → Forest ν → Prop
  | _, _, .null => True
  | [], _, .node _ _ _ => True
  | segment :: complete, last, .node p children next =>
    if Begins data segment p then
      (∀ line ∈ lines next, ¬Matches last (segment :: complete) (pathOf data line)) ∧
        if insensitive (data p).segment = insensitive segment then Clear complete last children
        else DeadEnd data complete last children
    else Clear (segment :: complete) last next

instance decidableDeadEnd : ∀ complete last t, Decidable (DeadEnd data complete last t)
  | [], _, .null | _ :: _, _, .null => .isTrue trivial
  | [], last, .node _ _ next => @instDecidableAnd _ _ _ (decidableDeadEnd [] last next)
  | segment :: complete, last, .node _ children next =>
    @instDecidableIte _ _ _ _ (decidableDeadEnd complete last children) (decidableDeadEnd (segment :: complete) last next)

instance decidableClear : ∀ complete last t, Decidable (Clear data complete last t)
  | [], _, .null | _ :: _, _, .null | [], _, .node _ _ _ => .isTrue trivial
  | segment :: complete, last, .node p children next =>
    @instDecidableIte (Begins data segment p) _ _ _
      (@instDecidableAnd _ _ _ (@instDecidableIte _ _ _ _ (decidableClear complete last children) _))
      (decidableClear (segment :: complete) last next)

variable {data} {complete : List (List UInt8)} {last : List UInt8}

theorem wanted_last (p : ν) (children next : Forest ν) : wanted data [] last (.node p children next) =
    (if Begins data last p then leaves (.node p children .null) else []) ++ wanted data [] last next := by
  rcases children with _ | ⟨q, cs, next'⟩
  · by_cases starts : Begins data last p
    · have here : Matches last [] (pathOf data ([], p)) := starts
      simp [wanted, lines, leaves, starts, here]
    · have here : ¬Matches last [] (pathOf data ([], p)) := starts
      simp [wanted, lines, starts, here]
  · have here : ∀ line : List ν × ν, Matches last [] (pathOf data (p :: line.1, line.2)) ↔ Begins data last p :=
      fun _ => Iff.rfl
    rw [wanted, lines, filter_append, map_append, List.filter_map, leaves_below]
    by_cases starts : Begins data last p
    · simp [here, starts, wanted, leaves, Function.comp_def]
    · simp [here, starts, wanted, Function.comp_def]

theorem wanted_node (segment : List UInt8) (p : ν) (children next : Forest ν) :
    wanted data (segment :: complete) last (.node p children next) =
      (if insensitive (data p).segment = insensitive segment then wanted data complete last children else []) ++
        wanted data (segment :: complete) last next := by
  rcases children with _ | ⟨q, cs, next'⟩
  · have here : ¬Matches last (segment :: complete) (pathOf data ([], p)) := by
      rintro ⟨-, more⟩
      rcases complete with _ | ⟨segment', complete⟩ <;> exact more
    simp [wanted, lines, here]
  · have here : ∀ line : List ν × ν, Matches last (segment :: complete) (pathOf data (p :: line.1, line.2)) ↔
        insensitive (data p).segment = insensitive segment ∧ Matches last complete (pathOf data line) :=
      fun _ => Iff.rfl
    rw [wanted, lines, filter_append, map_append, List.filter_map]
    by_cases same : insensitive (data p).segment = insensitive segment
    · simp [here, same, wanted, Function.comp_def]
    · simp [here, same, wanted, Function.comp_def]

variable {p : ν} {t : Forest ν}

theorem begins_of_same {segment : List UInt8} (same : insensitive (data p).segment = insensitive segment) :
    Begins data segment p := by
  rw [Begins, same]

theorem reached_last (t : Forest ν) : reached data [] last t = wanted data [] last t := by
  induction t with
  | null => rfl
  | node p children next _ ihn => rw [reached, wanted_last, ihn]

theorem reached_eq_nil_iff (t : Forest ν) : reached data complete last t = [] ↔ DeadEnd data complete last t := by
  induction t generalizing complete with
  | null => cases complete <;> simp [reached, DeadEnd]
  | node p children next ihc ihn =>
    rcases complete with _ | ⟨segment, complete⟩
    · rw [reached, DeadEnd, append_eq_nil_iff, ihn]
      by_cases starts : Begins data last p
      · simp [starts, leaves_ne_nil]
      · simp [starts]
    · rw [reached, DeadEnd]
      split
      · exact ihc
      · exact ihn

theorem wanted_eq_nil_iff (t : Forest ν) : wanted data complete last t = [] ↔
    ∀ line ∈ lines t, ¬Matches last complete (pathOf data line) := by
  simp [wanted, filter_eq_nil_iff]

theorem mem_leaves_of_wanted (member : p ∈ wanted data complete last t) : p ∈ leaves t := by
  obtain ⟨line, inside, rfl⟩ := List.mem_map.mp member
  exact List.mem_map_of_mem (mem_of_mem_filter inside)

theorem mem_leaves_of_reached (member : p ∈ reached data complete last t) : p ∈ leaves t := by
  induction t generalizing complete with
  | null => cases complete <;> exact absurd member not_mem_nil
  | node q children next ihc ihn =>
    rcases complete with _ | ⟨segment, complete⟩
    · rw [reached_last] at member
      exact mem_leaves_of_wanted member
    · rw [reached] at member
      rw [leaves_node]
      split at member
      · rcases children with _ | ⟨r, cs, next'⟩
        · cases complete <;> exact absurd member not_mem_nil
        · rw [leaves_below]
          exact mem_append_left _ (ihc member)
      · exact mem_append_right _ (ihn member)

theorem reached_perm_iff (distinct : (leaves t).Nodup) :
    (reached data complete last t).Perm (wanted data complete last t) ↔ Clear data complete last t := by
  induction t generalizing complete with
  | null => cases complete <;> simp [reached, wanted, lines, Clear]
  | node p children next ihc ihn =>
    rcases complete with _ | ⟨segment, complete⟩
    · rw [reached_last]
      exact ⟨fun _ => trivial, fun _ => List.Perm.refl _⟩
    · rw [leaves_node, nodup_append] at distinct
      obtain ⟨below, later, apart⟩ := distinct
      have under : ∀ {q}, q ∈ reached data complete last children → q ∈ leaves (.node p children .null) := by
        intro q member
        rcases children with _ | ⟨r, cs, next'⟩
        · cases complete <;> exact absurd member not_mem_nil
        · rw [leaves_below]
          exact mem_leaves_of_reached member
      have inner : (leaves children).Nodup := by
        rcases children with _ | ⟨r, cs, next'⟩
        · exact nodup_nil
        · rwa [leaves_below] at below
      rw [reached, wanted_node, Clear]
      by_cases starts : Begins data segment p
      · rw [if_pos starts, if_pos starts, ← wanted_eq_nil_iff]
        have only : ∀ {own : List ν}, (reached data complete last children).Perm
            (own ++ wanted data (segment :: complete) last next) →
            wanted data (segment :: complete) last next = [] := by
          intro own same
          refine eq_nil_iff_forall_not_mem.mpr (fun q member => ?_)
          have here := same.mem_iff.mpr (mem_append_right own member)
          exact apart q (under here) q (mem_leaves_of_wanted member) rfl
        by_cases same : insensitive (data p).segment = insensitive segment
        · rw [if_pos same, if_pos same, ← ihc inner]
          constructor
          · intro perm
            have none := only perm
            rw [none, append_nil] at perm
            exact ⟨none, perm⟩
          · rintro ⟨none, perm⟩
            rwa [none, append_nil]
        · rw [if_neg same, if_neg same, ← reached_eq_nil_iff, nil_append]
          constructor
          · intro perm
            have none := @only [] perm
            rw [none] at perm
            exact ⟨none, perm.eq_nil⟩
          · rintro ⟨none, dead⟩
            rw [none, dead]
      · have other : ¬insensitive (data p).segment = insensitive segment := fun same => starts (begins_of_same same)
        rw [if_neg starts, if_neg starts, if_neg other, nil_append]
        exact ihn later

end Wanted

def strstr (text sought : List UInt8) : Option (List UInt8) := text.tails.find? (fun s => sought <+: s)

def stripScheme (text : List UInt8) : List UInt8 := (strstr text (lit "://")).elim text (·.drop 3)

def searchedHost (db : Db) (text : List UInt8) : Option HostName :=
  let len := narrow (text.takeWhile (· ≠ ch '/')).length
  let host := (if 0 ≤ len then text.take len.toNat else text).take 255
  match searchFind (db.hosts.search (getSearchTree text)) host with
  | some name => some name
  | none =>
    if len ≤ 3 ∨ strncasecmp host (lit "www.") 4 ≠ .eq then
      searchFind (db.hosts.search (2 + (ch 'w' - ch 'a').toNat)) ((lit "www." ++ host).take 259)
    else none

def pathPart (text : List UInt8) : List UInt8 := (text.dropWhile (· ≠ ch '/')).tail

abbrev Node := List Nat × PathData

def pathsOf (db : Db) (name : HostName) : Forest Node :=
  ((db.hosts.get name).map (fun h => numbered [] 0 h.paths)).getD .null

/-- `urldb_iterate_partial`: the nodes that are given to the callback. Without a slash in the prefix it looks for hosts,
    which is left out here. -/
def iteratePartial (db : Db) (callback : Node → Bool) (prefix' : List UInt8) : Option (List Node) :=
  let text := stripScheme prefix'
  if ch '/' ∈ text then
    match searchedHost db text with
    | none => some []
    | some name =>
      let paths := pathsOf db name
      (iteratePartialPath Prod.snd callback ((values paths).length + (pathPart text).length) paths (pathPart text)
        []).map Prod.fst
  else none

def wantedOf (db : Db) (prefix' : List UInt8) : List Node :=
  let text := stripScheme prefix'
  ((searchedHost db text).map (fun name =>
    wanted Prod.snd (completeOf (pathPart text)) (partialOf (pathPart text)) (pathsOf db name))).getD []

/-- The callback is called once for every leaf that is wanted, in some order, as long as it returns true. -/
def Exact (db : Db) (prefix' : List UInt8) : Prop :=
  ∃ order : List Node, order.Perm (wantedOf db prefix') ∧
    ∀ callback, iteratePartial db callback prefix' = some (upTo callback order).1

/-- The way down the paths of the host is clear. -/
def ClearFor (db : Db) (prefix' : List UInt8) : Prop :=
  ∀ name, searchedHost db (stripScheme prefix') = some name →
    Clear Prod.snd (completeOf (pathPart (stripScheme prefix'))) (partialOf (pathPart (stripScheme prefix')))
      (pathsOf db name)

def AllClaimed (hosts : Hosts) : Prop :=
  ∀ a h, (a, h) ∈ hosts.tree.entries HostPart.key → ∀ p ∈ leaves h.paths, p.url.isSome

theorem claimed_addPath {port : Nat} {path : List UInt8} (old : ∀ p ∈ leaves paths, p.url.isSome) :
    ∀ p ∈ leaves (addPath scheme port paths path url).1, p.url.isSome := by
  refine leaves_put PathData.key ?_ ?_ old
  · intro p
    rw [PathData.claim]
    split
    next there => exact there
    next => rfl
  · exact fun none => splitOn_ne_nil _ _ (map_eq_nil_iff.mp none)

theorem claimed_storeAtPath (old : ∀ p ∈ leaves paths, p.url.isSome) :
    ∀ p ∈ leaves (storeAtPath now c scheme url paths), p.url.isSome := by
  rw [storeAtPath]
  refine leaves_update PathData.key (P := fun p : PathData => p.url.isSome) ?_ (claimed_addPath old)
  exact fun _ there => there

theorem claimed_modify {name : HostName} {f : HostPart → HostPart} (claimed : AllClaimed hosts)
    (key : ∀ h, (f h).key = h.key)
    (keeps : ∀ h : HostPart, (∀ p ∈ leaves h.paths, p.url.isSome) → ∀ p ∈ leaves (f h).paths, p.url.isSome) :
    AllClaimed (hosts.modify name f) := by
  intro a h member
  rcases Forest.mem_entries_update member key with old | ⟨-, h', old, rfl⟩
  · exact claimed a h old
  · exact keeps h' (claimed a h' old)

theorem claimed_grow {labels : List (List UInt8)} {search : Nat → AaTree HostName} (claimed : AllClaimed hosts) :
    AllClaimed { tree := hosts.grow labels, search } := by
  intro a h member
  rcases Forest.mem_entries_extend member with old | ⟨before, ⟨after, on⟩, -⟩
  · exact claimed a h old
  · have new : h ∈ hostNodes labels := by
      rw [← on]
      simp
    obtain ⟨part, -, rfl⟩ := List.mem_map.mp new
    exact fun p below => absurd below not_mem_nil

theorem claimed_addHost {host : List UInt8} (claimed : AllClaimed hosts) : AllClaimed (addHost hosts host).1 := by
  unfold addHost
  split
  · dsimp only
    split
    · exact claimed
    · exact claimed_grow claimed
  · exact claimed_grow claimed

theorem claimed_cookieHost {domain : List UInt8} (claimed : AllClaimed hosts) :
    AllClaimed (cookieHost hosts domain).1 := by
  unfold cookieHost
  split
  · exact claimed
  · exact claimed_addHost claimed

theorem claimed_insertCookie (claimed : AllClaimed hosts) : AllClaimed (insertCookie now hosts c scheme url) := by
  unfold insertCookie
  split
  · exact claimed_modify (claimed_cookieHost claimed) (fun _ => rfl) (fun _ old => old)
  · refine claimed_modify (claimed_cookieHost claimed) (fun _ => rfl) (fun h old => ?_)
    exact claimed_storeAtPath old

theorem url_touchDirectory {q : PathData} : (touchDirectory now sent q).url = q.url := by
  unfold touchDirectory
  split <;> rfl

theorem touchPaths_eq_null (empty : touchPaths now sent ks paths = .null) : paths = .null := by
  rcases paths with _ | ⟨p, cs, next⟩
  · rfl
  · exfalso
    rcases ks with _ | ⟨k, _ | ⟨k', ks⟩⟩
    · exact nomatch empty
    · exact nomatch empty
    · exact under_ne_null (alter_ne_null (by simp [Forest.mapSiblings])) empty

theorem claimed_touchPaths (old : ∀ p ∈ leaves paths, p.url.isSome) :
    ∀ p ∈ leaves (touchPaths now sent ks paths), p.url.isSome := by
  have directory : ∀ q : PathData, q.url.isSome → (touchDirectory now sent q).url.isSome := by
    intro q there
    rwa [url_touchDirectory]
  induction ks generalizing paths with
  | nil => exact old
  | cons k ks ih =>
    rcases ks with _ | ⟨k', ks⟩
    · refine leaves_mapSiblings (P := fun p : PathData => p.url.isSome) ?_ old
      intro q there
      split
      · exact there
      · exact directory q there
    · rw [touchPaths]
      refine leaves_under PathData.key (P := fun p : PathData => p.url.isSome) (fun _ below => ih below)
        (fun _ => touchPaths_eq_null) ?_
      refine leaves_alter PathData.key (P := fun p : PathData => p.url.isSome) ?_ ?_
      · exact fun _ there => there
      · exact leaves_mapSiblings (P := fun p : PathData => p.url.isSome) directory old

theorem claimed_kept : KeptWhere (fun _ => True) (fun _ => True) AllClaimed where
  addHost := fun claimed _ => claimed_addHost claimed
  addPathAt := fun claimed => claimed_modify claimed (fun _ => rfl) (fun _ old => claimed_addPath old)
  insertCookie := fun claimed _ => claimed_insertCookie claimed
  answerAt := by
    intro now db path includeHttpOnly place claimed a h member
    have touched : AllClaimed (db.hosts.modify place.host (fun h =>
        { h with paths := touchPaths now (sends now (cString path) includeHttpOnly) place.path h.paths })) :=
      claimed_modify claimed (fun _ => rfl) (fun _ old => claimed_touchPaths old)
    obtain ⟨h', inside, paths, -⟩ := mem_touchHosts member
    rw [paths]
    exact touched a h' inside
  deleteFrom := by
    refine fun claimed => claimed_modify claimed (fun h => ?_) fun h old => ?_
    · rw [HostPart.key, part_deleteFrom, HostPart.key]
    unfold deleteFrom
    split
    · exact old
    split
    · exact leaves_update PathData.key (P := fun p : PathData => p.url.isSome) (fun _ there => there) old
    · exact old

theorem fits_always : FitsUrlOp env (fun _ => True) (fun _ => True) op := by
  rcases op with (_ | _ | _ | _ | _) | _ | _ | _ | _ | _ | _ | _ <;> simp [FitsUrlOp, FitsOp, FitsUrl]

theorem url_of_change {f : PathData → PathData} (change : changeOf now op = some (url, f)) (p : PathData) :
    (f p).url = p.url := by
  rcases op with _ | _ | _ | _ | _ | _ | _ | _ <;> cases change <;> rfl

theorem claimed_urlRun {history : List UrlCall} (ran : urlRun env history = some db) : AllClaimed db.hosts := by
  refine urlRun_induct ?_ ?_ ran
  · intro a h member
    exact absurd member not_mem_nil
  · intro call _ db db' claimed stepped
    rcases change : changeOf call.now call.op with _ | ⟨url, f⟩
    · exact kept_urlStep claimed_kept (fun claimed => claimed_modify claimed (fun _ => rfl) (fun _ old => old)) claimed
        fits_always change stepped
    · obtain ⟨keeps, rfl | ⟨place, -, same⟩⟩ := urlStep_of_change change stepped
      · exact claimed
      · rw [same]
        refine claimed_modify claimed (fun _ => rfl) (fun h old => leaves_update PathData.key (fun p there => ?_) old)
        rwa [url_of_change change]

theorem leaves_numbered (above : List Nat) (i : Nat) (t : Forest PathData) :
    (leaves (numbered above i t)).map Prod.snd = leaves t := by
  rw [leaves, leaves, ← lines_numbered above i t, List.map_map, List.map_map]
  rfl

theorem claimed_pathsOf (claimed : AllClaimed db.hosts) (name : HostName) : Claimed Prod.snd (pathsOf db name) := by
  intro p member
  rw [pathsOf] at member
  rcases found : db.hosts.get name with _ | h
  · rw [found] at member
    exact absurd member not_mem_nil
  · rw [found] at member
    have inside := Forest.mem_entries_of_lookup HostPart.key found
    have leaf : p.2 ∈ leaves h.paths := by
      rw [← leaves_numbered [] 0 h.paths]
      exact List.mem_map_of_mem member
    exact claimed _ h inside p.2 leaf

theorem nodup_pathsOf (db : Db) (name : HostName) : (leaves (pathsOf db name)).Nodup := by
  rw [pathsOf]
  rcases db.hosts.get name with _ | h
  · exact nodup_nil
  · exact (leaves_sublist _).nodup (nodup_numbered [] 0 h.paths)

theorem upTo_all {ν : Type} (l : List ν) : (upTo (fun _ => true) l).1 = l := by
  induction l with
  | nil => rfl
  | cons p l ih => rw [upTo, if_pos rfl, ih]

theorem iteratePartial_eq (claimed : AllClaimed db.hosts) {prefix' : List UInt8}
    (withPath : ch '/' ∈ stripScheme prefix') :
    ∃ order, (∀ callback, iteratePartial db callback prefix' = some (upTo callback order).1) ∧
      (order.Perm (wantedOf db prefix') ↔ ClearFor db prefix') := by
  rcases host : searchedHost db (stripScheme prefix') with _ | name
  · refine ⟨[], fun callback => ?_, ?_⟩
    · rw [iteratePartial, if_pos withPath, host]
      rfl
    · rw [wantedOf, ClearFor, host]
      exact ⟨fun _ _ impossible => (nomatch impossible), fun _ => List.Perm.refl _⟩
  · let text := pathPart (stripScheme prefix')
    refine ⟨reached Prod.snd (completeOf text) (partialOf text) (pathsOf db name), fun callback => ?_, ?_⟩
    · rw [iteratePartial, if_pos withPath, host]
      dsimp only
      rw [iteratePartialPath_eq _ _ _ _ _ _ (claimed_pathsOf claimed name) le_rfl]
      rfl
    · rw [wantedOf, ClearFor, host, map_some, getD_some, reached_perm_iff (nodup_pathsOf db name)]
      constructor
      · rintro clear name' same
        cases same
        exact clear
      · exact fun clear => clear name rfl

/-- After every history a search for a prefix with a path returns, without reading a child that is not there, and it is
    exact if and only if the way down is clear. -/
theorem search_exact_iff (env : Env) (history : List UrlCall) (db : Db) (ran : urlRun env history = some db)
    (prefix' : List UInt8) (withPath : ch '/' ∈ stripScheme prefix') :
    (∀ callback, (iteratePartial db callback prefix').isSome) ∧ (Exact db prefix' ↔ ClearFor db prefix') := by
  obtain ⟨order, calls, perm⟩ := iteratePartial_eq (claimed_urlRun ran) withPath
  refine ⟨fun callback => by rw [calls]; rfl, ?_⟩
  constructor
  · rintro ⟨order', perm', calls'⟩
    have same : order' = order := by
      have all := (calls' (fun _ => true)).symm.trans (calls (fun _ => true))
      rwa [upTo_all, upTo_all, some_inj] at all
    rw [same] at perm'
    exact perm.mp perm'
  · intro clear
    exact ⟨order, perm.mpr clear, calls⟩

def threeUrls : List UrlCall :=
  [⟨0, .cookies (.addUrl (urlOf (lit "http://h/b")))⟩, ⟨0, .cookies (.addUrl (urlOf (lit "http://h/a/x")))⟩,
    ⟨0, .cookies (.addUrl (urlOf (lit "http://h/a/y/z")))⟩]

/-- Of three URLs two are below the directory of the prefix, and the search comes to both. -/
theorem exact_of_three : ∃ db, urlRun plainEnv threeUrls = some db ∧ (wantedOf db (lit "h/a/")).length = 2 ∧
    Exact db (lit "h/a/") := by
  have computed : (urlRun plainEnv threeUrls).map (fun db =>
      ((wantedOf db (lit "h/a/")).length, (searchedHost db (lit "h/a/")).map fun name =>
        decide (Clear Prod.snd (completeOf (pathPart (lit "h/a/"))) (partialOf (pathPart (lit "h/a/"))) (pathsOf db name)))) =
      some (2, some true) := by
    decide +kernel
  obtain ⟨db, ran, both⟩ := map_eq_some_iff.mp computed
  obtain ⟨two, way⟩ := Prod.mk.inj both
  refine ⟨db, ran, two, (search_exact_iff plainEnv threeUrls db ran (lit "h/a/") (by decide +kernel)).2.mpr ?_⟩
  intro name found
  obtain ⟨name', found', clear⟩ := map_eq_some_iff.mp way
  obtain rfl : name = name' := some_inj.mp (found.symm.trans found')
  exact of_decide_eq_true clear

/-- Of two URLs with one directory under two schemes, the search comes to one. -/
theorem second_scheme_missed : ∃ db, urlRun plainEnv [⟨0, .cookies (.addUrl (urlOf (lit "http://h/a/x")))⟩,
    ⟨0, .cookies (.addUrl (urlOf (lit "https://h/a/y")))⟩] = some db ∧ ¬Exact db (lit "h/a/") := by
  have counts : (urlRun plainEnv [⟨0, .cookies (.addUrl (urlOf (lit "http://h/a/x")))⟩,
      ⟨0, .cookies (.addUrl (urlOf (lit "https://h/a/y")))⟩]).map (fun db =>
        ((iteratePartial db (fun _ => true) (lit "h/a/")).map List.length, (wantedOf db (lit "h/a/")).length)) =
      some (some 1, 2) := by
    decide +kernel
  obtain ⟨db, ran, both⟩ := map_eq_some_iff.mp counts
  obtain ⟨one, two⟩ := Prod.mk.inj both
  refine ⟨db, ran, ?_⟩
  rintro ⟨order, perm, calls⟩
  rw [calls, upTo_all, map_some, some_inj, perm.length_eq, two] at one
  exact absurd one (by decide)

end Besra.PrefixSearch
