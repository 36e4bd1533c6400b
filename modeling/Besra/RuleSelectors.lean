import Mathlib
import Besra.HashChainRun
import Besra.SelectorParse

/-!
The selectors of a rule, from the tokens in front of its block to the selector hash and
out of it again: `parseSelectorList` and `handleStartRuleset` of
`libcss/src/parse/language.c`, and what they call in `libcss/src/stylesheet.c`. A rule
counts its selectors in 16 bits (`items`), and the array is as long as the count says.

What the hash reads of a selector is `heap`; the calls are those of `HashChain`.
-/
namespace Besra.RuleSelectors
open Lwc Cursor Besra.Lex Nth SelectorParse SelectorHash HashChain HashChainRun List Option

variable {σ δ : Type}

/-- `css_rule_selector`, with the array as far as it is allocated. -/
structure CssRule (σ : Type) where
  items : UInt16 := 0
  selectors : List σ := []
  index : UInt32 := 0
  parent : Option Nat := none
deriving DecidableEq

/-- The first `items` selectors. -/
def CssRule.held (rule : CssRule σ) : List σ := rule.selectors.take rule.items.toNat

/-- `malloc` and `realloc` while a ruleset begins: the addresses of a new rule and of new selectors, whether an
array of so many pointers and an entry of the stack can be had, and the memory for the entries of the hash. -/
structure Supply (σ : Type) where
  rule : (Nat → Option (CssRule σ)) → Option Nat
  freshRule : ∀ rules a, rule rules = some a → rules a = none
  selector : List σ → Option σ
  freshSelector : ∀ inUse p, selector inUse = some p → p ∉ inUse
  array : Nat → Bool
  stack : Bool
  entry : Malloc

/-- `css__stylesheet_rule_add_selector`; none for CSS_NOMEM. -/
def ruleAddSelector (supply : Supply σ) (rule : CssRule σ) (p : σ) : Option (CssRule σ) :=
  if supply.array (rule.items.toNat + 1) then
    some { rule with selectors := rule.selectors.take rule.items.toNat ++ [p], items := rule.items + 1 }
  else none

/-- The selectors that are allocated, the newest first, and the rule that they are added to. -/
structure Parsed (σ : Type) where
  selectors : List (σ × SelectorParse.CssSelector)
  rule : CssRule σ

def readSelector (c : Language) (supply : Supply σ) (st : Parsed σ) (ts : List Token) : Parsed σ × Except CssError (List Token) :=
  match (parseSelector c).run ts with
  | (.error _, _) => (st, .error .invalid)
  | (.ok selector, rest) =>
    match supply.selector (st.selectors.map Prod.fst) with
    | none => (st, .error .nomem)
    | some p =>
      match ruleAddSelector supply st.rule p with
      | none => (st, .error .nomem)
      | some rule => (⟨(p, selector) :: st.selectors, rule⟩, .ok rest)

/-- A selector, and the rounds of the loop of `parseSelectorList` behind it, for at most so many commas. -/
def readSelectors (c : Language) (supply : Supply σ) : Nat → Parsed σ → List Token → Parsed σ × CssError
  | n, st, ts =>
    match readSelector c supply st ts with
    | (st, .error e) => (st, e)
    | (st, .ok []) => (st, .ok)
    | (st, .ok (token :: rest)) =>
      if isChar token (ch ',') = false then (st, .invalid)
      else
        match n with
        | 0 => (st, .invalid)
        | n + 1 => readSelectors c supply n st (trim rest)

def parseSelectorList (c : Language) (supply : Supply σ) (st : Parsed σ) (ts : List Token) : Parsed σ × CssError :=
  readSelectors c supply ts.length st (trim ts)

/-- The part of `css_stylesheet` that adding and removing rules reads. -/
structure CssStylesheet (σ : Type) where
  selectors : Hash σ
  ruleCount : UInt32

variable [DecidableEq σ] (heap : σ → SelectorHash.CssSelector δ)

/-- The loop of `_add_selectors` that reverts what was done, without regard to errors. -/
def revert : Hash σ → List σ → Option (Hash σ)
  | hash, [] => some hash
  | hash, p :: ps => (removeFromChain hash (placeOf heap p) p).bind fun (hash, _) => revert hash ps

/-- `_add_selectors`, with those that are done, the last one first. -/
def addSelectors (mem : Malloc) : Hash σ → List σ → List σ → Option (Hash σ × CssError)
  | hash, _, [] => some (hash, .ok)
  | hash, done, p :: ps =>
    (HashChain.insertIntoChain heap hash (placeOf heap p) p mem).bind fun (hash, e) =>
      if e = .ok then addSelectors mem hash (p :: done) ps else (revert heap hash done).map fun hash => (hash, e)

def removeSelectors : Hash σ → List σ → Option (Hash σ × CssError)
  | hash, [] => some (hash, .ok)
  | hash, p :: ps =>
    (removeFromChain hash (placeOf heap p) p).bind fun (hash, e) =>
      if e = .ok then removeSelectors hash ps else some (hash, e)

/-- `css__stylesheet_add_rule`, without the lists of rules. -/
def addRule (mem : Malloc) (sheet : CssStylesheet σ) (rule : CssRule σ) (parent : Option Nat) :
    Option (CssStylesheet σ × CssRule σ × CssError) :=
  let rule := { rule with index := sheet.ruleCount }
  (addSelectors heap mem sheet.selectors [] rule.held).map fun (hash, e) =>
    if e = .ok then (⟨hash, sheet.ruleCount + 1⟩, { rule with parent := parent }, .ok)
    else ({ sheet with selectors := hash }, rule, e)

/-- `css__stylesheet_remove_rule`, without the lists of rules. -/
def removeRule (sheet : CssStylesheet σ) (rule : CssRule σ) : Option (CssStylesheet σ × CssRule σ × CssError) :=
  (removeSelectors heap sheet.selectors rule.held).map fun (hash, e) =>
    if e = .ok then ({ sheet with selectors := hash }, { rule with parent := none }, .ok)
    else ({ sheet with selectors := hash }, rule, e)

inductive ContextType where
  | startStylesheet
  | startRuleset
  | startAtrule
  | startBlock
deriving DecidableEq

/-- `context_entry`, with the address of its rule. -/
structure ContextEntry where
  type : ContextType
  data : Option Nat
deriving DecidableEq

/-- `css_language`, with the sheet, the rules and the selectors that are allocated. -/
structure CssLanguage (σ : Type) where
  language : Language
  sheet : CssStylesheet σ
  context : List ContextEntry
  hadRule : Bool
  rules : Nat → Option (CssRule σ)
  selectors : List (σ × SelectorParse.CssSelector)

/-- `css__stylesheet_rule_destroy` for a rule that is in no sheet: its selectors are freed. -/
def CssLanguage.destroy (c : CssLanguage σ) (rule : CssRule σ) : CssLanguage σ :=
  { c with selectors := c.selectors.filter fun s => s.1 ∉ rule.held }

def CssLanguage.parentRule (c : CssLanguage σ) : Option Nat :=
  match c.context with
  | [] => none
  | cur :: _ => if cur.type = .startStylesheet then none else cur.data

omit [DecidableEq σ] in
/-- A new rule with the selectors in front of its block, if there are any. -/
def CssLanguage.parse (c : CssLanguage σ) (supply : Supply σ) : Option (List Token) → Parsed σ × CssError
  | none => (⟨c.selectors, {}⟩, .ok)
  | some ts => parseSelectorList c.language supply ⟨c.selectors, {}⟩ ts

/-- `handleStartRuleset`, behind the selectors. -/
def startRuleset (supply : Supply σ) (c : CssLanguage σ) (a : Nat) (rule : CssRule σ) : Option (CssLanguage σ × CssError) :=
  if supply.stack then
    (addRule heap supply.entry c.sheet rule c.parentRule).map fun (sheet, rule, e) =>
      if e = .ok then
        ({ c with
          sheet := sheet
          rules := Function.update c.rules a (some rule)
          context := ⟨.startRuleset, some a⟩ :: c.context
          hadRule := true }, .ok)
      else ({ c.destroy rule with sheet := sheet }, e)
  else some (c.destroy rule, .nomem)

def handleStartRuleset (supply : Supply σ) (c : CssLanguage σ) (vector : Option (List Token)) :
    Option (CssLanguage σ × CssError) :=
  match supply.rule c.rules with
  | none => some (c, .nomem)
  | some a =>
    match c.parse supply vector with
    | (st, .ok) => startRuleset heap supply { c with selectors := st.selectors } a st.rule
    | (st, e) => some (({ c with selectors := st.selectors } : CssLanguage σ).destroy st.rule, e)

/-- The tokens of a selector list: selectors with commas between them. -/
inductive SelectorList (c : Language) : List Token → List SelectorParse.CssSelector → Prop where
  | one {ts : List Token} {s : SelectorParse.CssSelector} : (parseSelector c).run ts = (.ok s, []) → SelectorList c ts [s]
  | more {ts rest : List Token} {comma : Token} {s : SelectorParse.CssSelector} {ss : List SelectorParse.CssSelector} :
      (parseSelector c).run ts = (.ok s, comma :: rest) → isChar comma (ch ',') = true → SelectorList c (trim rest) ss →
      SelectorList c ts (s :: ss)

/-- The hash holds these selectors, inserted in this order and each as often as it is listed. -/
def Tended (hash : Hash σ) (standing : List σ) : Prop := ∃ lists own, Kept heap hash standing lists own

/-- The rule has all selectors of the list in their order, each at an address of its own. Each was inserted into the
hash once, and exactly they are taken out of it when the rule is removed. -/
structure NothingLost (before : List σ) (c : CssLanguage σ) (rule : CssRule σ) (parsed : List SelectorParse.CssSelector) :
    Prop where
  count : rule.items.toNat = parsed.length
  selectors : List.Forall₂ (fun p s => (p, s) ∈ c.selectors) rule.held parsed
  nodup : (before ++ rule.held).Nodup
  inserted : Tended heap c.sheet.selectors (before ++ rule.held)
  removed : ∀ (sheet : CssStylesheet σ) (standing : List σ), Tended heap sheet.selectors standing → standing.Nodup →
    (∀ p ∈ rule.held, p ∈ standing) → ∃ sheet' rule', removeRule heap sheet rule = some (sheet', rule', .ok) ∧
      Tended heap sheet'.selectors (standing.filter (· ∉ rule.held))

/-- The array and its count are what was added. -/
structure Filled (rule : CssRule σ) (ps : List σ) : Prop where
  count : rule.items.toNat = ps.length
  all : rule.selectors = ps

omit [DecidableEq σ] in
theorem filled_empty : Filled ({} : CssRule σ) [] := ⟨rfl, rfl⟩

omit [DecidableEq σ] in
variable {ps before : List σ} {rule : CssRule σ} {supply : Supply σ} {rest ts : List Token} {st' st : Parsed σ}
  {c : Language} {m n : Nat} {p : σ} {sheet : CssStylesheet σ}

theorem Filled.held (filled : Filled rule ps) : rule.held = ps := by
  rw [CssRule.held, filled.count, filled.all, take_length]

omit [DecidableEq σ] in
theorem Filled.add {supply : Supply σ} {rule rule' : CssRule σ} {ps : List σ} {p : σ} (filled : Filled rule ps)
    (room : ps.length + 1 < 2 ^ 16) (added : ruleAddSelector supply rule p = some rule') : Filled rule' (ps ++ [p]) := by
  rw [ruleAddSelector] at added
  split at added
  · obtain rfl := some_inj.mp added
    refine ⟨?_, ?_⟩
    · have count := filled.count
      rw [UInt16.toNat_add, count, length_append]
      exact Nat.mod_eq_of_lt room
    · exact congrArg (· ++ [p]) filled.held
  · cases added

omit [DecidableEq σ] in
theorem readSelector_ok (read : readSelector c supply st ts = (st', .ok rest)) :
    ∃ s p, (parseSelector c).run ts = (.ok s, rest) ∧ p ∉ st.selectors.map Prod.fst ∧
      st'.selectors = (p, s) :: st.selectors ∧ ruleAddSelector supply st.rule p = some st'.rule := by
  rw [readSelector] at read
  rcases parsed : (parseSelector c).run ts with ⟨_ | s, left⟩
  · simp [parsed] at read
  · rw [parsed] at read
    rcases given : supply.selector (st.selectors.map Prod.fst) with _ | p
    · simp [given] at read
    · simp only [given] at read
      rcases added : ruleAddSelector supply st.rule p with _ | rule
      · simp [added] at read
      · rw [added] at read
        obtain ⟨rfl, same⟩ := Prod.mk.inj read
        obtain rfl := Except.ok.inj same
        exact ⟨s, p, rfl, supply.freshSelector _ _ given, rfl, added⟩

omit [DecidableEq σ] in
theorem readSelector_error {e : CssError} (read : readSelector c supply st ts = (st', .error e)) :
    e = .invalid ∨ e = .nomem := by
  rw [readSelector] at read
  split at read
  · exact .inl (Except.error.inj (congrArg Prod.snd read)).symm
  · split at read
    · exact .inr (Except.error.inj (congrArg Prod.snd read)).symm
    · split at read
      · exact .inr (Except.error.inj (congrArg Prod.snd read)).symm
      · exact absurd (congrArg Prod.snd read) (by simp)

omit [DecidableEq σ] in
theorem readSelector_length (read : readSelector c supply st ts = (st', .ok rest)) : rest.length ≤ ts.length := by
  obtain ⟨s, p, parsed, -⟩ := readSelector_ok read
  have suffix := (steady_parseSelector c ts).1
  rw [parsed] at suffix
  exact suffix.length_le

omit [DecidableEq σ] in
theorem readSelectors_enough (c : Language) (supply : Supply σ) (short : ts.length ≤ n) (short' : ts.length ≤ m) :
    readSelectors c supply n st ts = readSelectors c supply m st ts := by
  induction n generalizing m st ts with
  | zero =>
    rw [readSelectors, readSelectors]
    rcases read : readSelector c supply st ts with ⟨st', e | _ | ⟨token, rest⟩⟩
    · rfl
    · rfl
    · have used := readSelector_length read
      rw [length_cons] at used
      omega
  | succ n ih =>
    rw [readSelectors, readSelectors]
    rcases read : readSelector c supply st ts with ⟨st', e | _ | ⟨token, rest⟩⟩
    · rfl
    · rfl
    · have used := readSelector_length read
      have trimmed := (trim_suffix rest).length_le
      rw [length_cons] at used
      rcases m with _ | m
      · omega
      · simp only
        rw [ih (m := m) (by omega) (by omega)]

omit [DecidableEq σ] in
/-- The loop over a selector list ends by itself: rounds beyond one for each token change nothing. -/
theorem parseSelectorList_ends (c : Language) (supply : Supply σ) (st : Parsed σ) (ts : List Token) (more : Nat) :
    readSelectors c supply (ts.length + more) st (trim ts) = parseSelectorList c supply st ts := by
  have short := (trim_suffix ts).length_le
  exact readSelectors_enough c supply (by omega) short

/-- What reading a list of selectors does with the rule and the selectors that are allocated. -/
structure ReadAll (st st' : Parsed σ) (parsed : List SelectorParse.CssSelector) (ps : List σ) : Prop where
  selectors : List.Forall₂ (fun p s => (p, s) ∈ st'.selectors) ps parsed
  nodup : ps.Nodup
  fresh : ∀ p ∈ ps, p ∉ st.selectors.map Prod.fst
  kept : st.selectors ⊆ st'.selectors
  filled : ∀ qs, Filled st.rule qs → qs.length + parsed.length < 2 ^ 16 → Filled st'.rule (qs ++ ps)

omit [DecidableEq σ] in
theorem readAll_one (read : readSelector c supply st ts = (st', .ok rest)) {s : SelectorParse.CssSelector}
    (parsed : (parseSelector c).run ts = (.ok s, rest)) : ∃ p, ReadAll st st' [s] [p] := by
  obtain ⟨s', p, parsed', fresh, selectors, added⟩ := readSelector_ok read
  obtain rfl : s = s' := Except.ok.inj (congrArg Prod.fst (parsed.symm.trans parsed'))
  refine ⟨p, ?_, nodup_singleton p, ?_, ?_, fun qs filled room => filled.add room added⟩
  · rw [selectors]
    exact .cons mem_cons_self .nil
  · intro q among
    rwa [mem_singleton.mp among]
  · rw [selectors]
    exact subset_cons_self _ _

omit [DecidableEq σ] in
theorem ReadAll.cons {st st' st'' : Parsed σ} {s : SelectorParse.CssSelector} {ss : List SelectorParse.CssSelector} {p : σ}
    {ps : List σ} (first : ReadAll st st' [s] [p]) (rest : ReadAll st' st'' ss ps) : ReadAll st st'' (s :: ss) (p :: ps) := by
  have kept : ∀ q, q ∈ st.selectors.map Prod.fst → q ∈ st'.selectors.map Prod.fst := by
    intro q listed
    obtain ⟨entry, among, rfl⟩ := List.mem_map.mp listed
    exact List.mem_map_of_mem (first.kept among)
  obtain ⟨own, -⟩ := List.forall₂_cons.mp first.selectors
  refine ⟨.cons (rest.kept own) rest.selectors, nodup_cons.mpr ⟨fun again => ?_, rest.nodup⟩, ?_, ?_, ?_⟩
  · exact rest.fresh p again (List.mem_map.mpr ⟨_, own, rfl⟩)
  · intro q among
    rcases mem_cons.mp among with rfl | later
    · exact first.fresh q mem_cons_self
    · exact fun listed => rest.fresh q later (kept q listed)
  · exact fun entry among => rest.kept (first.kept among)
  · intro qs filled room
    rw [length_cons] at room
    have one := first.filled qs filled (by rw [length_singleton]; omega)
    have all := rest.filled (qs ++ [p]) one (by rw [length_append, length_singleton]; omega)
    rwa [append_assoc] at all

omit [DecidableEq σ] in
theorem readAll_of_list {parsed : List SelectorParse.CssSelector} (list : SelectorList c ts parsed)
    (read : readSelectors c supply n st ts = (st', .ok)) : ∃ ps, ReadAll st st' parsed ps := by
  induction list generalizing n st with
  | @one ts s parsed =>
    rw [readSelectors] at read
    rcases first : readSelector c supply st ts with ⟨st₁, e | rest⟩
    · rw [first] at read
      obtain rfl : e = .ok := congrArg Prod.snd read
      simpa using readSelector_error first
    · obtain ⟨s', p, parsed', -⟩ := readSelector_ok first
      obtain rfl : [] = rest := congrArg Prod.snd (parsed.symm.trans parsed')
      obtain ⟨p, one⟩ := readAll_one first parsed
      rw [first] at read
      obtain ⟨rfl, -⟩ := Prod.mk.inj read
      exact ⟨[p], one⟩
  | @more ts rest comma s ss parsed isComma _ ih =>
    rw [readSelectors] at read
    rcases first : readSelector c supply st ts with ⟨st₁, e | left⟩
    · rw [first] at read
      obtain rfl : e = .ok := congrArg Prod.snd read
      simpa using readSelector_error first
    · obtain ⟨s', p, parsed', -⟩ := readSelector_ok first
      obtain rfl : comma :: rest = left := congrArg Prod.snd (parsed.symm.trans parsed')
      obtain ⟨p, one⟩ := readAll_one first parsed
      rw [first] at read
      simp only [isComma, Bool.true_eq_false, if_false] at read
      rcases n with _ | n
      · simp at read
      · obtain ⟨ps, rest⟩ := ih read
        exact ⟨p :: ps, one.cons rest⟩

variable {heap} {hash : Hash σ} {standing : List σ}

omit [DecidableEq σ] in
theorem Kept.mem {lists : CssSelectorHash σ} {own : Place → List Ptr} (kept : Kept heap hash standing lists own) :
    p ∈ (lists (placeOf heap p)).map (·.sel) ↔ p ∈ standing := by
  rw [(kept.sorted _).perm.mem_iff, mem_filter]
  simp

theorem Tended.insert (tended : Tended heap hash standing) (p : σ) (mem : Malloc) :
    ∃ hash' e, HashChain.insertIntoChain heap hash (placeOf heap p) p mem = some (hash', e) ∧
      (e = .ok ∧ Tended heap hash' (standing ++ [p]) ∨ e = .nomem ∧ Tended heap hash' standing) := by
  obtain ⟨lists, own, kept⟩ := tended
  obtain ⟨hash', e, lists', own', called, kept', -⟩ := kept.insert p mem
  refine ⟨hash', e, called, ?_⟩
  rw [call] at called
  rcases insertIntoChain_shows heap kept.shows (placeOf heap p) p mem with ⟨failed, -⟩ | ⟨_, _, inserted, -⟩
  · obtain ⟨rfl, rfl⟩ := Prod.mk.inj (some_inj.mp (failed.symm.trans called))
    exact .inr ⟨rfl, lists', own', kept'⟩
  · obtain ⟨rfl, rfl⟩ := Prod.mk.inj (some_inj.mp (inserted.symm.trans called))
    exact .inl ⟨rfl, lists', own', kept'⟩

theorem Tended.remove (tended : Tended heap hash standing) (among : p ∈ standing) :
    ∃ hash', removeFromChain hash (placeOf heap p) p = some (hash', .ok) ∧ Tended heap hash' (standing.erase p) := by
  obtain ⟨lists, own, kept⟩ := tended
  obtain ⟨hash', e, lists', own', called, kept', -⟩ := kept.remove p
  rw [call] at called
  rcases removeFromChain_shows kept.shows (placeOf heap p) p with ⟨-, absent⟩ | ⟨_, _, _, removed, -⟩
  · exact absurd (Kept.mem kept |>.mpr among) absent
  · obtain ⟨rfl, rfl⟩ := Prod.mk.inj (some_inj.mp (removed.symm.trans called))
    exact ⟨_, called, lists', own', kept'⟩

theorem removeSelectors_ok (tended : Tended heap hash standing) (nodup : standing.Nodup) (distinct : ps.Nodup)
    (among : ∀ p ∈ ps, p ∈ standing) :
    ∃ hash', removeSelectors heap hash ps = some (hash', .ok) ∧ Tended heap hash' (standing.filter (· ∉ ps)) := by
  induction ps generalizing hash standing with
  | nil =>
    refine ⟨hash, rfl, ?_⟩
    rw [filter_eq_self.mpr (by simp)]
    exact tended
  | cons p ps ih =>
    obtain ⟨fresh, distinct⟩ := nodup_cons.mp distinct
    obtain ⟨hash', removed, tended'⟩ := tended.remove (among p mem_cons_self)
    have left : ∀ q ∈ ps, q ∈ standing.erase p := by
      intro q listed
      have other : q ≠ p := fun same => fresh (same ▸ listed)
      exact (mem_erase_of_ne other).mpr (among q (mem_cons_of_mem _ listed))
    obtain ⟨hash'', rest, tended''⟩ := ih tended' (nodup.erase p) distinct left
    refine ⟨hash'', ?_, ?_⟩
    · rw [removeSelectors, removed, bind_some]
      simp only [if_true]
      exact rest
    · have same : standing.filter (· ∉ p :: ps) = (standing.erase p).filter (· ∉ ps) := by
        rw [nodup.erase_eq_filter, List.filter_filter]
        refine filter_congr fun q _ => ?_
        by_cases here : q = p <;> simp [here]
      rw [same]
      exact tended''

theorem revert_of_remove {hash' : Hash σ} (removed : removeSelectors heap hash ps = some (hash', .ok)) :
    revert heap hash ps = some hash' := by
  induction ps generalizing hash with
  | nil => exact congrArg (Option.map Prod.fst) removed
  | cons p ps ih =>
    rw [removeSelectors] at removed
    obtain ⟨⟨next, e⟩, one, rest⟩ := bind_eq_some_iff.mp removed
    rw [revert, one, bind_some]
    by_cases ok : e = .ok
    · simp only [if_pos ok] at rest
      exact ih rest
    · simp only [if_neg ok] at rest
      exact absurd (congrArg Prod.snd (some_inj.mp rest)) ok

theorem addSelectors_ok (mem : Malloc) {done : List σ} (tended : Tended heap hash (before ++ done.reverse))
    (nodup : (before ++ done.reverse ++ ps).Nodup) :
    ∃ hash' e, addSelectors heap mem hash done ps = some (hash', e) ∧
      (e = .ok ∧ Tended heap hash' (before ++ done.reverse ++ ps) ∨ e = .nomem ∧ Tended heap hash' before) := by
  induction ps generalizing hash done with
  | nil => exact ⟨hash, .ok, rfl, .inl ⟨rfl, by rwa [append_nil]⟩⟩
  | cons p ps ih =>
    obtain ⟨hash', e, inserted, ⟨rfl, tended'⟩ | ⟨rfl, tended'⟩⟩ := tended.insert p mem
    · have shape : before ++ done.reverse ++ p :: ps = before ++ (p :: done).reverse ++ ps := by simp
      rw [shape] at nodup ⊢
      rw [addSelectors, inserted, bind_some]
      simp only [if_true]
      refine ih ?_ nodup
      simpa using tended'
    · rw [addSelectors, inserted, bind_some]
      simp only [reduceCtorEq, if_false]
      obtain ⟨distinct, -, -⟩ := nodup_append.mp nodup
      obtain ⟨-, distinctDone, apart⟩ := nodup_append.mp distinct
      obtain ⟨hash'', removed, tended''⟩ :=
        removeSelectors_ok tended' distinct (nodup_reverse.mp distinctDone) fun q among => by simp [among]
      have left : (before ++ done.reverse).filter (· ∉ done) = before := by
        rw [filter_append, filter_eq_self.mpr, filter_eq_nil_iff.mpr, append_nil]
        · simp
        · intro q among
          have other : q ∉ done := fun again => apart q among q (mem_reverse.mpr again) rfl
          simpa using other
      rw [left] at tended''
      exact ⟨hash'', .nomem, by rw [revert_of_remove removed]; rfl, .inr ⟨rfl, tended''⟩⟩

theorem removeRule_ok (tended : Tended heap sheet.selectors standing) (nodup : standing.Nodup)
    (distinct : rule.held.Nodup) (among : ∀ p ∈ rule.held, p ∈ standing) :
    ∃ sheet' rule', removeRule heap sheet rule = some (sheet', rule', .ok) ∧
      Tended heap sheet'.selectors (standing.filter (· ∉ rule.held)) := by
  obtain ⟨hash', removed, tended'⟩ := removeSelectors_ok tended nodup distinct among
  refine ⟨⟨hash', sheet.ruleCount⟩, { rule with parent := none }, ?_, tended'⟩
  rw [removeRule, removed]
  rfl

theorem of_addRule {mem : Malloc} {sheet' : CssStylesheet σ} {rule' : CssRule σ} {parent : Option Nat}
    (tended : Tended heap sheet.selectors before) (nodup : (before ++ rule.held).Nodup)
    (added : addRule heap mem sheet rule parent = some (sheet', rule', .ok)) :
    Tended heap sheet'.selectors (before ++ rule.held) ∧ rule'.items = rule.items ∧ rule'.selectors = rule.selectors := by
  rw [addRule] at added
  obtain ⟨⟨hash', e⟩, inserted, result⟩ := map_eq_some_iff.mp added
  have held : ({ rule with index := sheet.ruleCount } : CssRule σ).held = rule.held := rfl
  rw [held] at inserted
  have start : Tended heap sheet.selectors (before ++ ([] : List σ).reverse) := by simpa using tended
  obtain ⟨_, _, inserted', outcome⟩ := addSelectors_ok mem start (by simpa using nodup)
  obtain ⟨rfl, rfl⟩ := Prod.mk.inj (some_inj.mp (inserted'.symm.trans inserted))
  rcases outcome with ⟨rfl, all⟩ | ⟨rfl, -⟩
  · simp only [if_true, Prod.mk.injEq, and_true] at result
    obtain ⟨rfl, rfl⟩ := result
    exact ⟨by simpa using all, rfl, rfl⟩
  · exact absurd result (by simp)

theorem of_handleStartRuleset {c c' : CssLanguage σ} {vector : Option (List Token)}
    (started : handleStartRuleset heap supply c vector = some (c', .ok)) :
    ∃ a st sheet rule, c.parse supply vector = (st, .ok) ∧
      addRule heap supply.entry c.sheet st.rule c.parentRule = some (sheet, rule, .ok) ∧
      c'.context.head? = some ⟨.startRuleset, some a⟩ ∧ c'.rules a = some rule ∧ c'.sheet = sheet ∧
      c'.selectors = st.selectors := by
  rw [handleStartRuleset] at started
  rcases created : supply.rule c.rules with _ | a
  · simp [created] at started
  rcases parsed : c.parse supply vector with ⟨st, e⟩
  simp only [created, parsed] at started
  cases e with
  | ok =>
    simp only [startRuleset] at started
    split at started
    · obtain ⟨⟨sheet, rule, e⟩, added, result⟩ := map_eq_some_iff.mp started
      by_cases ok : e = .ok
      · subst ok
        simp only [if_true, Prod.mk.injEq, and_true] at result
        subst result
        exact ⟨a, st, sheet, rule, rfl, added, rfl, Function.update_self .., rfl, rfl⟩
      · simp only [if_neg ok, Prod.mk.injEq] at result
        exact absurd result.2 ok
    · simp at started
  | nomem => simp at started
  | invalid => simp at started

theorem nothingLost_of_short {supply : Supply σ} {c c' : CssLanguage σ} {before : List σ} {parsed : List SelectorParse.CssSelector}
    {st : Parsed σ} {ps : List σ} {sheet : CssStylesheet σ} {rule : CssRule σ} (tended : Tended heap c.sheet.selectors before)
    (distinct : before.Nodup) (allocated : ∀ p ∈ before, p ∈ c.selectors.map Prod.fst)
    (read : ReadAll ⟨c.selectors, {}⟩ st parsed ps) (short : parsed.length < 2 ^ 16)
    (added : addRule heap supply.entry c.sheet st.rule c.parentRule = some (sheet, rule, .ok))
    (same : c'.sheet = sheet) (selectors : c'.selectors = st.selectors) : NothingLost heap before c' rule parsed := by
  have filled : Filled st.rule ps := read.filled [] filled_empty (by simpa using short)
  have nodup : (before ++ ps).Nodup := by
    refine nodup_append.mpr ⟨distinct, read.nodup, ?_⟩
    rintro p among q listed rfl
    exact read.fresh p listed (allocated p among)
  obtain ⟨inserted, items, array⟩ := of_addRule tended (by rw [filled.held]; exact nodup) added
  have filled' : Filled rule ps := ⟨by rw [items]; exact filled.count, by rw [array]; exact filled.all⟩
  refine ⟨?_, ?_, ?_, ?_, fun other standing' tended' nodup' among => ?_⟩
  · rw [filled'.count, read.selectors.length_eq]
  · rw [filled'.held, selectors]
    exact read.selectors
  · rw [filled'.held]
    exact nodup
  · rw [filled'.held, same, ← filled.held]
    exact inserted
  · exact removeRule_ok tended' nodup' (by rw [filled'.held]; exact read.nodup) among

/-- A ruleset that begins without an error loses no selector of its list exactly if there are fewer than 2^16. -/
theorem nothingLost_iff {supply : Supply σ} {c c' : CssLanguage σ} {before : List σ} {ts : List Token}
    {parsed : List SelectorParse.CssSelector} (tended : Tended heap c.sheet.selectors before) (distinct : before.Nodup)
    (allocated : ∀ p ∈ before, p ∈ c.selectors.map Prod.fst) (list : SelectorList c.language (trim ts) parsed)
    (started : handleStartRuleset heap supply c (some ts) = some (c', .ok)) :
    ∃ a rule, c'.context.head? = some ⟨.startRuleset, some a⟩ ∧ c'.rules a = some rule ∧
      (NothingLost heap before c' rule parsed ↔ parsed.length < 2 ^ 16) := by
  obtain ⟨a, st, sheet, rule, read, added, top, stored, same, selectors⟩ := of_handleStartRuleset started
  refine ⟨a, rule, top, stored, fun kept => kept.count ▸ rule.items.toNat_lt, fun short => ?_⟩
  obtain ⟨ps, readAll⟩ := readAll_of_list list read
  exact nothingLost_of_short tended distinct allocated readAll short added same selectors

/-- Memory that does not run out, as long as there is room for the rule. -/
def plenty : Supply Nat where
  rule rules := if (rules 0).isNone then some 0 else none
  freshRule rules a given := by
    split at given
    next free => exact some_inj.mp given ▸ isNone_iff_eq_none.mp free
    next => cases given
  selector inUse := some (inUse.sum + 1)
  freshSelector inUse p given among := by
    obtain rfl := some_inj.mp given
    exact absurd (le_sum_of_mem among) (by omega)
  array _ := true
  stack := true
  entry := ⟨fun inUse => some (inUse.sum + 1), fun inUse a given among => by
    obtain rfl := some_inj.mp given
    exact absurd (le_sum_of_mem among) (by omega)⟩

/-- A language without namespaces, and a sheet without rules. -/
def fresh : CssLanguage Nat where
  language := ⟨[], none⟩
  sheet := ⟨create, 0⟩
  context := [⟨.startStylesheet, none⟩]
  hadRule := false
  rules _ := none
  selectors := []

/-- `a`, with so many times `, a` behind it. -/
def manyA : Nat → List Token
  | 0 => [⟨.ident, lit "a"⟩]
  | n + 1 => ⟨.ident, lit "a"⟩ :: ⟨.char, lit ","⟩ :: manyA n

/-- The selector `a`. -/
def selectorA : SelectorParse.CssSelector := .last (selectorCreate false ⟨some universal, lit "a"⟩)

theorem parse_last : (parseSelector fresh.language).run (manyA 0) = (.ok selectorA, []) := by
  decide

theorem parse_more (ts : List Token) : (parseSelector fresh.language).run (⟨.ident, lit "a"⟩ :: ⟨.char, lit ","⟩ :: ts) =
    (.ok selectorA, ⟨.char, lit ","⟩ :: ts) := rfl

theorem trim_manyA (n : Nat) : trim (manyA n) = manyA n := by
  cases n <;> rfl

theorem list_manyA (n : Nat) : SelectorList fresh.language (manyA n) (List.replicate (n + 1) selectorA) := by
  induction n with
  | zero => exact .one parse_last
  | succ n ih => exact .more (parse_more (manyA n)) (by decide) ((trim_manyA n).symm ▸ ih)

/-- What `plenty` lets a selector do. -/
def withA (st : Parsed Nat) : Parsed Nat where
  selectors := ((st.selectors.map Prod.fst).sum + 1, selectorA) :: st.selectors
  rule := { st.rule with
    selectors := st.rule.selectors.take st.rule.items.toNat ++ [(st.selectors.map Prod.fst).sum + 1]
    items := st.rule.items + 1 }

theorem read_last (st : Parsed Nat) : readSelector fresh.language plenty st (manyA 0) = (withA st, .ok []) := by
  rw [readSelector, parse_last]
  rfl

theorem read_more (st : Parsed Nat) (ts : List Token) :
    readSelector fresh.language plenty st (⟨.ident, lit "a"⟩ :: ⟨.char, lit ","⟩ :: ts) =
      (withA st, .ok (⟨.char, lit ","⟩ :: ts)) := by
  rw [readSelector, parse_more]
  rfl

theorem read_manyA (enough : n ≤ m) (st : Parsed Nat) :
    ∃ st', readSelectors fresh.language plenty m st (manyA n) = (st', .ok) ∧
      st'.rule.items = st.rule.items + UInt16.ofNat (n + 1) := by
  induction n generalizing m st with
  | zero =>
    refine ⟨withA st, ?_, rfl⟩
    rw [readSelectors, read_last]
  | succ n ih =>
    rcases m with _ | m
    · omega
    · obtain ⟨st', read, items⟩ := ih (m := m) (by omega) (withA st)
      refine ⟨st', ?_, ?_⟩
      · rw [readSelectors, manyA, read_more]
        simp only [trim_manyA]
        exact read
      · rw [items, UInt16.ofNat_add (n + 1) 1, UInt16.add_comm (UInt16.ofNat (n + 1)), ← UInt16.add_assoc]
        rfl

theorem length_manyA (n : Nat) : n ≤ (manyA n).length := by
  induction n with
  | zero => exact Nat.zero_le _
  | succ n ih =>
    rw [manyA, length_cons, length_cons]
    omega

theorem none_negated : ∀ d ∈ ([] : List Selector.Detail), d.type = .element → d.negate = true := by simp

/-- What the hash reads of the selector `a`. -/
def heapA : Nat → SelectorHash.CssSelector Unit :=
  fun _ => ⟨.last ⟨⟨some universal, lit "a"⟩, [], none_negated⟩, 1, ⟨0, none, []⟩⟩

theorem started_manyA (wraps : UInt16.ofNat (n + 1) = 0) :
    ∃ c', handleStartRuleset heapA plenty fresh (some (manyA n)) = some (c', .ok) := by
  obtain ⟨st, read, items⟩ := read_manyA (length_manyA n) ⟨[], {}⟩
  have none_held : st.rule.items = 0 := by rw [items, wraps]; rfl
  have parsed : fresh.parse plenty (some (manyA n)) = (st, .ok) := by
    rw [CssLanguage.parse, parseSelectorList, trim_manyA]
    exact read
  have created : plenty.rule fresh.rules = some 0 := rfl
  have added : addRule heapA plenty.entry fresh.sheet st.rule fresh.parentRule =
      some (⟨fresh.sheet.selectors, fresh.sheet.ruleCount + 1⟩,
        { st.rule with index := fresh.sheet.ruleCount, parent := fresh.parentRule }, .ok) := by
    have held : ({ st.rule with index := fresh.sheet.ruleCount } : CssRule Nat).held = [] := by
      rw [CssRule.held, none_held]
      rfl
    simp only [addRule, held]
    rfl
  rw [handleStartRuleset, created]
  simp only [parsed, startRuleset]
  rw [if_pos (show plenty.stack = true from rfl)]
  exact ⟨_, map_eq_some_iff.mpr ⟨_, added, rfl⟩⟩

/-- With 65536 selectors the rule has none of them. -/
theorem all_selectors_lost : ∃ c', SelectorList fresh.language (trim (manyA 65535)) (List.replicate 65536 selectorA) ∧
    handleStartRuleset heapA plenty fresh (some (manyA 65535)) = some (c', .ok) ∧
    ∀ a rule, c'.context.head? = some ⟨.startRuleset, some a⟩ → c'.rules a = some rule →
      ¬ NothingLost heapA [] c' rule (List.replicate 65536 selectorA) := by
  have list := list_manyA 65535
  rw [← trim_manyA] at list
  obtain ⟨c', started⟩ := started_manyA (n := 65535) (by decide)
  refine ⟨c', list, started, fun a rule _ _ kept => ?_⟩
  have count := kept.count
  rw [length_replicate] at count
  exact absurd rule.items.toNat_lt (by omega)

/-- Two selectors. -/
theorem nothingLost_of_two : ∃ c' a rule, handleStartRuleset heapA plenty fresh (some (manyA 1)) = some (c', .ok) ∧
    c'.context.head? = some ⟨.startRuleset, some a⟩ ∧ c'.rules a = some rule ∧
      (NothingLost heapA [] c' rule [selectorA, selectorA] ↔ [selectorA, selectorA].length < 2 ^ 16) := by
  have list : SelectorList fresh.language (trim (manyA 1)) [selectorA, selectorA] := trim_manyA 1 ▸ list_manyA 1
  have ends : (handleStartRuleset heapA plenty fresh (some (manyA 1))).map Prod.snd = some .ok := by decide
  obtain ⟨⟨c', e⟩, started, rfl⟩ := map_eq_some_iff.mp ends
  have tended : Tended heapA fresh.sheet.selectors [] := ⟨_, _, kept_create⟩
  obtain ⟨a, rule, top, stored, kept⟩ := nothingLost_iff tended nodup_nil (by simp) list started
  exact ⟨c', a, rule, started, top, stored, kept⟩

end Besra.RuleSelectors
