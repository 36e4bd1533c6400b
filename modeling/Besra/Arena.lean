import Besra.Lwc
import Besra.Runs
import Mathlib.Data.List.Nodup
import Mathlib.Logic.Function.Basic

/-!
The computed style arena of `libcss/src/select/arena.c`: a table of 5101 bins in which equal computed styles are kept
once.
-/
namespace Besra.Arena
open Lwc Function

/-- The data of a `css_computed_content_item`, by its type. -/
inductive ContentData where
  | string (value : LwcString)
  | uri (value : LwcString)
  | counter (name : LwcString) (style : UInt8)
  | counters (name sep : LwcString) (style : UInt8)
  | attr (value : LwcString)
  | openQuote
  | closeQuote
  | noOpenQuote
  | noCloseQuote
deriving DecidableEq

/-- `css_computed_content_item`. `pad` is what the item's memory holds besides its data. -/
structure ContentItem where
  data : ContentData
  pad : List UInt8 := []
deriving DecidableEq

/-- The items before the one of type NONE that ends the array, and the memory of that last one. -/
structure ContentArray where
  items : List ContentItem
  stop : List UInt8 := []
deriving DecidableEq

/-- `css_computed_counter` -/
structure Counter where
  name : LwcString
  value : Int32
deriving DecidableEq

/-- The counters before the one without a name that ends the array, and the value of that last one. -/
structure CounterArray where
  entries : List Counter
  stop : Int32 := 0
deriving DecidableEq

/-- `css_computed_style`; the `next` pointers are the order of the chains of the table. -/
structure ComputedStyle where
  i : List UInt8
  content : Option ContentArray := none
  counterIncrement : Option CounterArray := none
  counterReset : Option CounterArray := none
  cursor : Option (List LwcString) := none
  fontFamily : Option (List LwcString) := none
  quotes : Option (List LwcString) := none
  count : UInt32 := 0
  bin : UInt32 := 0xffffffff
deriving DecidableEq

structure Values where
  i : List UInt8
  content : Option (List ContentData)
  counterIncrement : Option (List Counter)
  counterReset : Option (List Counter)
  cursor : Option (List LwcString)
  fontFamily : Option (List LwcString)
  quotes : Option (List LwcString)
deriving DecidableEq

def ContentArray.values (array : ContentArray) : List ContentData := array.items.map ContentItem.data

def values (s : ComputedStyle) : Values where
  i := s.i
  content := s.content.map ContentArray.values
  counterIncrement := s.counterIncrement.map CounterArray.entries
  counterReset := s.counterReset.map CounterArray.entries
  cursor := s.cursor
  fontFamily := s.fontFamily
  quotes := s.quotes

/-- The multiplier of `css__arena_hash`. -/
def m : UInt32 := 0x5bd1e995

/-- The loop and the left over bytes of `css__arena_hash`. -/
def arenaHashBytes (h : UInt32) : List UInt8 → UInt32
  | a :: b :: c :: d :: data =>
    let k := a.toUInt32 ||| (b.toUInt32 <<< 8) ||| (c.toUInt32 <<< 16) ||| (d.toUInt32 <<< 24)
    let k := k * m
    let k := k ^^^ (k >>> 24)
    let k := k * m
    arenaHashBytes ((h * m) ^^^ k) data
  | [a, b, c] => (h ^^^ (c.toUInt32 <<< 16) ^^^ (b.toUInt32 <<< 8) ^^^ a.toUInt32) * m
  | [a, b] => (h ^^^ (b.toUInt32 <<< 8) ^^^ a.toUInt32) * m
  | [a] => (h ^^^ a.toUInt32) * m
  | [] => h

/-- `css__arena_hash` -/
def arenaHash (data : List UInt8) : UInt32 :=
  let h := arenaHashBytes (UInt32.ofNat data.length) data
  let h := h ^^^ (h >>> 13)
  let h := h * m
  h ^^^ (h >>> 15)

/-- `css__arena_hash_style` -/
def hashStyle (s : ComputedStyle) : UInt32 := arenaHash s.i

/-- What the first item of a content array holds; an empty array starts with the item of type NONE. -/
def ContentArray.first (array : ContentArray) : Option ContentData × List UInt8 :=
  match array.items with
  | [] => (none, array.stop)
  | item :: _ => (some item.data, item.pad)

/-- What the first counter of an array holds; an empty array starts with the counter without a name. -/
def CounterArray.first (array : CounterArray) : Option LwcString × Int32 :=
  match array.entries with
  | [] => (none, array.stop)
  | counter :: _ => (some counter.name, counter.value)

/-- `arena__compare_computed_content_item`, given the arrays, of which it compares the first items. -/
def compareComputedContentItem : Option ContentArray → Option ContentArray → Bool
  | none, none => true
  | some a, some b => a.first == b.first
  | _, _ => false

/-- `arena__compare_css_computed_counter`, given the arrays, of which it compares the first entries. -/
def compareCssComputedCounter : Option CounterArray → Option CounterArray → Bool
  | none, none => true
  | some a, some b => a.first.2 == b.first.2 && a.first.1 == b.first.1
  | _, _ => false

/-- The loop of `arena__compare_string_list`. -/
def compareStrings : List LwcString → List LwcString → Bool
  | a :: as, b :: bs => isEqual a b && compareStrings as bs
  | [], [] => true
  | _, _ => false

/-- `arena__compare_string_list` -/
def compareStringList : Option (List LwcString) → Option (List LwcString) → Bool
  | none, none => true
  | some a, some b => compareStrings a b
  | _, _ => false

/-- `css__arena_style_is_equal` -/
def styleIsEqual (a b : ComputedStyle) : Bool :=
  a.i == b.i &&
  compareStringList a.fontFamily b.fontFamily &&
  compareCssComputedCounter a.counterIncrement b.counterIncrement &&
  compareCssComputedCounter a.counterReset b.counterReset &&
  compareComputedContentItem a.content b.content &&
  compareStringList a.cursor b.cursor &&
  compareStringList a.quotes b.quotes

inductive CssError where
  | ok
  | badparm
deriving DecidableEq

def tsSize : UInt32 := 5101

/-- `table_s`: the chain of each bin, in the order of its `next` pointers. -/
abbrev Table := UInt32 → List ComputedStyle

def emptyTable : Table := fun _ => []

/-- How `css__arena_intern_style` leaves its argument. -/
inductive Interned where
  /-- `CSS_BADPARM`: the style was interned before. -/
  | refused (style : ComputedStyle)
  /-- The style itself is now in the table. -/
  | inserted (style : ComputedStyle)
  /-- The style was destroyed, a reference to a stored one stands for it. -/
  | shared (existing : ComputedStyle)
deriving DecidableEq

/-- The style the caller holds afterwards. -/
def Interned.style : Interned → ComputedStyle
  | .refused style => style
  | .inserted style => style
  | .shared existing => existing

/-- The search of a chain for a style equal to `s`, which counts one more reference to it. -/
def shareExisting (s : ComputedStyle) : List ComputedStyle → Option (ComputedStyle × List ComputedStyle)
  | [] => none
  | l :: rest =>
    if styleIsEqual l s then
      let existing := { l with count := l.count + 1 }
      some (existing, existing :: rest)
    else (shareExisting s rest).map (fun found => (found.1, l :: found.2))

/-- `css__arena_intern_style` -/
def internStyle (table : Table) (style : ComputedStyle) : Interned × Table :=
  if style.count ≠ 0 then (.refused style, table)
  else
    let index := hashStyle style % tsSize
    let s := { style with bin := index }
    match shareExisting s (table index) with
    | some (existing, chain) => (.shared existing, update table index chain)
    | none =>
      let s := { s with count := 1 }
      (.inserted s, update table index (s :: table index))

/-- `css__arena_remove_style`; `none` where it reads past the end of the table. -/
def removeStyle (table : Table) (style : ComputedStyle) : Option (CssError × Table) :=
  let index := style.bin
  if index < tsSize then
    if (table index).any (styleIsEqual · style) then
      some (.ok, update table index ((table index).eraseP (styleIsEqual · style)))
    else some (.badparm, table)
  else none

inductive Op where
  | intern (style : ComputedStyle)
  | remove (style : ComputedStyle)
deriving DecidableEq

def step (table : Table) : Op → Option Table
  | .intern style => some (internStyle table style).2
  | .remove style => (removeStyle table style).map Prod.snd

/-- The table after a sequence of operations on the empty table. -/
def run (ops : List Op) : Option Table := ops.foldlM step emptyTable

/-- All that `styleIsEqual` looks at. -/
structure Compared where
  i : List UInt8
  content : Option (Option ContentData × List UInt8)
  counterIncrement : Option (Option LwcString × Int32)
  counterReset : Option (Option LwcString × Int32)
  cursor : Option (List LwcString)
  fontFamily : Option (List LwcString)
  quotes : Option (List LwcString)

def compared (s : ComputedStyle) : Compared where
  i := s.i
  content := s.content.map ContentArray.first
  counterIncrement := s.counterIncrement.map CounterArray.first
  counterReset := s.counterReset.map CounterArray.first
  cursor := s.cursor
  fontFamily := s.fontFamily
  quotes := s.quotes

structure LaterEntries where
  content : Option (List ContentData)
  counterIncrement : Option (List Counter)
  counterReset : Option (List Counter)
deriving DecidableEq

def laterEntries (s : ComputedStyle) : LaterEntries where
  content := s.content.map (fun array => array.values.tail)
  counterIncrement := s.counterIncrement.map (fun array => array.entries.tail)
  counterReset := s.counterReset.map (fun array => array.entries.tail)

/-- The two styles agree in `i`, in their string lists and in the first content item and counters,
    and differ in a later content item or counter. -/
def DifferOnlyLater (a b : ComputedStyle) : Prop :=
  compared a = compared b ∧ laterEntries a ≠ laterEntries b

private theorem compareStrings_iff (a b : List LwcString) : compareStrings a b = true ↔ a = b := by
  induction a generalizing b with
  | nil => cases b <;> simp [compareStrings]
  | cons x xs ih => cases b <;> simp [compareStrings, ih]

private theorem compareStringList_iff (a b : Option (List LwcString)) : compareStringList a b = true ↔ a = b := by
  cases a <;> cases b <;> simp [compareStringList, compareStrings_iff]

private theorem compareCounter_iff (a b : Option CounterArray) :
    compareCssComputedCounter a b = true ↔ a.map CounterArray.first = b.map CounterArray.first := by
  cases a <;> cases b <;> simp [compareCssComputedCounter, Prod.ext_iff, and_comm]

private theorem compareContent_iff (a b : Option ContentArray) :
    compareComputedContentItem a b = true ↔ a.map ContentArray.first = b.map ContentArray.first := by
  cases a <;> cases b <;> simp [compareComputedContentItem]

theorem styleIsEqual_iff (a b : ComputedStyle) : styleIsEqual a b = true ↔ compared a = compared b := by
  simp only [styleIsEqual, Bool.and_eq_true, beq_iff_eq, compareStringList_iff, compareCounter_iff,
    compareContent_iff, compared, Compared.mk.injEq]
  tauto

private theorem counters_eq_iff (a b : Option CounterArray)
    (same : a.map CounterArray.first = b.map CounterArray.first) :
    a.map CounterArray.entries = b.map CounterArray.entries ↔
      a.map (fun array => array.entries.tail) = b.map (fun array => array.entries.tail) := by
  rcases a with _ | ⟨_ | ⟨⟨name, value⟩, as⟩, stop⟩ <;> rcases b with _ | ⟨_ | ⟨⟨name', value'⟩, bs⟩, stop'⟩ <;>
    simp_all [CounterArray.first]

private theorem content_eq_iff (a b : Option ContentArray)
    (same : a.map ContentArray.first = b.map ContentArray.first) :
    a.map ContentArray.values = b.map ContentArray.values ↔
      a.map (fun array => array.values.tail) = b.map (fun array => array.values.tail) := by
  rcases a with _ | ⟨_ | ⟨⟨data, pad⟩, as⟩, stop⟩ <;> rcases b with _ | ⟨_ | ⟨⟨data', pad'⟩, bs⟩, stop'⟩ <;>
    simp_all [ContentArray.first, ContentArray.values]

theorem values_eq_iff_laterEntries (a b : ComputedStyle) (same : compared a = compared b) :
    values a = values b ↔ laterEntries a = laterEntries b := by
  simp only [compared, Compared.mk.injEq] at same
  obtain ⟨sameI, sameContent, sameIncrement, sameReset, sameCursor, sameFamily, sameQuotes⟩ := same
  simp only [values, laterEntries, Values.mk.injEq, LaterEntries.mk.injEq, content_eq_iff _ _ sameContent,
    counters_eq_iff _ _ sameIncrement, counters_eq_iff _ _ sameReset, sameI, sameCursor, sameFamily,
    sameQuotes, true_and, and_true]

def keys (table : Table) (index : UInt32) : List Compared := (table index).map compared

structure Invariant (table : Table) : Prop where
  once : ∀ index, (keys table index).Nodup
  placed : ∀ index key, key ∈ keys table index → arenaHash key.i % tsSize = index

def Stored (table : Table) (style : ComputedStyle) : Prop := ∃ index, style ∈ table index

variable {chain : List ComputedStyle} {s : ComputedStyle} {index : UInt32} {table after : Table} {ops : List Op}

private theorem shareExisting_none (absent : shareExisting s chain = none) : compared s ∉ chain.map compared := by
  induction chain with
  | nil => simp
  | cons l rest ih =>
    by_cases equal : styleIsEqual l s
    · simp [shareExisting, equal] at absent
    · simp only [shareExisting, equal, Bool.false_eq_true, ↓reduceIte, Option.map_eq_none_iff] at absent
      rw [styleIsEqual_iff] at equal
      simp only [List.map_cons, List.mem_cons, not_or]
      exact ⟨fun same => equal same.symm, ih absent⟩

private theorem shareExisting_some {existing : ComputedStyle} {after : List ComputedStyle}
    (found : shareExisting s chain = some (existing, after)) :
    ∃ stored ∈ chain, compared stored = compared s ∧ existing = { stored with count := stored.count + 1 } ∧
      after.map compared = chain.map compared := by
  induction chain generalizing after with
  | nil => simp [shareExisting] at found
  | cons l rest ih =>
    by_cases equal : styleIsEqual l s
    · simp only [shareExisting, equal, ↓reduceIte, Option.some.injEq, Prod.mk.injEq] at found
      obtain ⟨rfl, rfl⟩ := found
      exact ⟨l, by simp, (styleIsEqual_iff l s).mp equal, rfl, rfl⟩
    · simp only [shareExisting, equal, Bool.false_eq_true, ↓reduceIte, Option.map_eq_some_iff,
        Prod.mk.injEq, Prod.exists] at found
      obtain ⟨existing', after', found, rfl, rfl⟩ := found
      obtain ⟨stored, member, same, counted, kept⟩ := ih found
      exact ⟨stored, List.mem_cons_of_mem l member, same, counted, by simp [kept]⟩

theorem internStyle_cases (table : Table) (style : ComputedStyle) (bin : hashStyle style % tsSize = index) :
    (style.count ≠ 0 ∧ internStyle table style = (.refused style, table)) ∨
    (style.count = 0 ∧ ∃ stored chain, stored ∈ table index ∧ compared stored = compared style ∧
      chain.map compared = keys table index ∧
      internStyle table style =
        (.shared { stored with count := stored.count + 1 }, update table index chain)) ∨
    (style.count = 0 ∧ compared style ∉ keys table index ∧
      internStyle table style = (.inserted { style with bin := index, count := 1 },
        update table index ({ style with bin := index, count := 1 } :: table index))) := by
  by_cases fresh : style.count = 0
  · right
    have unfolded : internStyle table style =
        match shareExisting { style with bin := index } (table index) with
        | some (existing, chain) => (.shared existing, update table index chain)
        | none => (.inserted { style with bin := index, count := 1 },
            update table index ({ style with bin := index, count := 1 } :: table index)) := by
      simp only [internStyle, fresh, ne_eq, not_true_eq_false, ↓reduceIte, bin]
    cases found : shareExisting { style with bin := index } (table index) with
    | some result =>
      obtain ⟨existing, chain⟩ := result
      obtain ⟨stored, member, same, rfl, kept⟩ := shareExisting_some found
      exact Or.inl ⟨fresh, stored, chain, member, same, kept, by rw [unfolded, found]⟩
    | none =>
      have absent : compared { style with bin := index } ∉ keys table index := shareExisting_none found
      exact Or.inr ⟨fresh, absent, by rw [unfolded, found]⟩
  · exact Or.inl ⟨fresh, by simp [internStyle, fresh]⟩

private theorem keys_update (table : Table) (index other : UInt32) (chain : List ComputedStyle) :
    keys (update table index chain) other =
      if other = index then chain.map compared else keys table other := by
  by_cases same : other = index
  · subst same; simp [keys]
  · simp [keys, same]

private theorem invariant_update (invariant : Invariant table) (once : (chain.map compared).Nodup)
    (placed : ∀ key ∈ chain.map compared, arenaHash key.i % tsSize = index) : Invariant (update table index chain) := by
  constructor
  · intro other
    rw [keys_update]
    split
    · exact once
    · exact invariant.once other
  · intro other key member
    rw [keys_update] at member
    split at member
    · rename_i same
      rw [same]
      exact placed key member
    · exact invariant.placed other key member

theorem invariant_empty : Invariant emptyTable :=
  ⟨fun _ => by simp [keys, emptyTable], fun _ _ member => by simp [keys, emptyTable] at member⟩

theorem invariant_intern (style : ComputedStyle) (invariant : Invariant table) :
    Invariant (internStyle table style).2 := by
  rcases internStyle_cases table style rfl with
    ⟨_, result⟩ | ⟨_, _, chain, _, _, kept, result⟩ | ⟨_, absent, result⟩ <;> rw [result]
  · exact invariant
  · apply invariant_update invariant
    · rw [kept]; exact invariant.once _
    · rw [kept]; exact invariant.placed _
  · apply invariant_update invariant
    · exact List.nodup_cons.mpr ⟨absent, invariant.once _⟩
    · intro key member
      rcases List.mem_cons.mp member with rfl | member
      · rfl
      · exact invariant.placed _ key member

theorem invariant_remove {style : ComputedStyle} {error : CssError} (invariant : Invariant table)
    (removed : removeStyle table style = some (error, after)) : Invariant after := by
  simp only [removeStyle] at removed
  split at removed
  · split at removed
    · simp only [Option.some.injEq, Prod.mk.injEq] at removed
      obtain ⟨_, rfl⟩ := removed
      have sub : (((table style.bin).eraseP (styleIsEqual · style)).map compared).Sublist (keys table style.bin) :=
        List.eraseP_sublist.map compared
      apply invariant_update invariant
      · exact (invariant.once _).sublist sub
      · exact fun key member => invariant.placed _ key (sub.subset member)
    · simp only [Option.some.injEq, Prod.mk.injEq] at removed
      exact removed.2 ▸ invariant
  · simp at removed

theorem invariant_step {op : Op} (invariant : Invariant table) (stepped : step table op = some after) :
    Invariant after := by
  cases op with
  | intern style =>
    simp only [step, Option.some.injEq] at stepped
    exact stepped ▸ invariant_intern style invariant
  | remove style =>
    simp only [step, Option.map_eq_some_iff, Prod.exists] at stepped
    obtain ⟨error, _, removed, rfl⟩ := stepped
    exact invariant_remove invariant removed

theorem invariant_run (reached : run ops = some table) : Invariant table :=
  Runs.run_stays reached invariant_empty (fun _ _ _ _ invariant stepped => invariant_step invariant stepped)

/-- The style the caller holds after interning has the values of the one it gave, and the given style
    was not merged into a stored one of other values. -/
def Preserves (table : Table) (style : ComputedStyle) : Prop :=
  values (internStyle table style).1.style = values style ∧
    ∀ existing, (internStyle table style).1 = .shared existing → values existing = values style

/-- No stored style differs from a style about to be interned in later entries alone. -/
def NoLaterDifference (table : Table) (style : ComputedStyle) : Prop :=
  style.count = 0 → ∀ stored, Stored table stored → ¬ DifferOnlyLater stored style

/-- `P` holds of every style a sequence of operations interns, in the table it meets. -/
def EveryIntern (P : Table → ComputedStyle → Prop) (ops : List Op) : Prop :=
  ∀ before style after table, ops = before ++ .intern style :: after → run before = some table → P table style

private theorem stored_unique {a b : ComputedStyle} (invariant : Invariant table) (first : a ∈ table index)
    (second : b ∈ table index) (same : compared a = compared b) : a = b := by
  exact List.inj_on_of_nodup_map (invariant.once index) first second same

theorem preserves_iff (style : ComputedStyle) (invariant : Invariant table) :
    Preserves table style ↔ NoLaterDifference table style := by
  obtain ⟨bin, hashed⟩ : ∃ bin, hashStyle style % tsSize = bin := ⟨_, rfl⟩
  have placed : ∀ other, Stored table other → compared other = compared style → other ∈ table bin := by
    rintro other ⟨index, there⟩ same
    have placed := invariant.placed index _ (List.mem_map_of_mem there)
    rw [same] at placed
    exact hashed ▸ placed ▸ there
  rcases internStyle_cases table style hashed with
    ⟨interned, result⟩ | ⟨fresh, stored, chain, member, same, kept, result⟩ | ⟨fresh, absent, result⟩
  · simp [Preserves, NoLaterDifference, result, Interned.style, interned]
  · -- The bin holds one style of this key, so it is the one the search finds.
    have only : ∀ other, Stored table other → compared other = compared style → other = stored :=
      fun other there sameOther =>
        stored_unique invariant (placed other there sameOther) member (sameOther.trans same.symm)
    have kept : Preserves table style ↔ values stored = values style := by
      simp [Preserves, result, Interned.style, values]
    rw [kept, values_eq_iff_laterEntries _ _ same]
    constructor
    · rintro later - other there ⟨sameOther, differ⟩
      rw [only other there sameOther] at differ
      exact differ later
    · intro condition
      by_contra differ
      exact condition fresh stored ⟨_, member⟩ ⟨same, differ⟩
  · have keeps : Preserves table style := by simp [Preserves, result, Interned.style, values]
    refine ⟨fun _ _ other there differ => ?_, fun _ => keeps⟩
    exact absent (differ.1 ▸ List.mem_map_of_mem (placed other there differ.1))

/-- Along every sequence of operations interning keeps all values and merges equal styles only, exactly
    when no interned style meets a stored one that differs from it in later entries alone. -/
theorem interning_preserves_iff (ops : List Op) : EveryIntern Preserves ops ↔ EveryIntern NoLaterDifference ops := by
  constructor
  · intro preserved before style after table split reached
    exact (preserves_iff style (invariant_run reached)).mp (preserved before style after table split reached)
  · intro condition before style after table split reached
    exact (preserves_iff style (invariant_run reached)).mpr (condition before style after table split reached)

/-- `content: "a" "b"` -/
def contentAB : ComputedStyle where
  i := []
  content := some { items := [⟨.string (lit "a"), []⟩, ⟨.string (lit "b"), []⟩] }

/-- `content: "a" "c"` -/
def contentAC : ComputedStyle where
  i := []
  content := some { items := [⟨.string (lit "a"), []⟩, ⟨.string (lit "c"), []⟩] }

/-- The second of two styles that differ in their second content item comes back as the first. -/
theorem later_content_lost : ¬ EveryIntern Preserves [.intern contentAB, .intern contentAC] := by
  intro preserved
  have kept := (preserved [.intern contentAB] contentAC [] (internStyle emptyTable contentAB).2 rfl rfl).1
  revert kept
  decide

end Besra.Arena
