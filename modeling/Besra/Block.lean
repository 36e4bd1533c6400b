import Mathlib.Data.List.Basic
import Mathlib.Data.List.TakeDrop

/-!
A block of memory as the list of what is in it: what stands in a window of it, and what stands there after data has
been written. A window apart from what is written keeps what it shows.
-/
namespace Besra.Block
open List

variable {α : Type}

def window (block : List α) (start size : Nat) : List α := (block.drop start).take size

def poke (block : List α) (start : Nat) (data : List α) : List α :=
  block.take start ++ (data ++ block.drop (start + data.length))

variable {block data : List α} {start size n : Nat}

theorem length_window (inside : start + size ≤ block.length) : (window block start size).length = size := by
  rw [window, length_take, length_drop]
  omega

theorem length_poke (inside : start + data.length ≤ block.length) : (poke block start data).length = block.length := by
  rw [poke, length_append, length_append, length_take, length_drop]
  omega

theorem getElem?_window (block : List α) (start size i : Nat) :
    (window block start size)[i]? = if i < size then block[start + i]? else none := by
  rw [window, List.getElem?_take, List.getElem?_drop]

theorem getElem?_poke (inside : start + data.length ≤ block.length) (i : Nat) :
    (poke block start data)[i]? =
      if i < start then block[i]? else if i < start + data.length then data[i - start]? else block[i]? := by
  have before : (block.take start).length = start := by
    rw [length_take]
    omega
  rw [poke, List.getElem?_append, before]
  split
  next here => rw [List.getElem?_take, if_pos here]
  next there =>
    rw [List.getElem?_append]
    by_cases among : i < start + data.length
    · rw [if_pos among, if_pos (by omega)]
    · rw [if_neg among, if_neg (by omega), List.getElem?_drop]
      congr 1
      omega

theorem window_poke_self (inside : start + data.length ≤ block.length) :
    window (poke block start data) start data.length = data := by
  apply ext_getElem?
  intro i
  rw [getElem?_window]
  split
  next here =>
    rw [getElem?_poke inside, if_neg (by omega), if_pos (by omega)]
    congr 1
    omega
  next there => exact (List.getElem?_eq_none (by omega)).symm

theorem window_poke_apart {place : Nat} (inside : place + data.length ≤ block.length)
    (apart : start + size ≤ place ∨ place + data.length ≤ start) :
    window (poke block place data) start size = window block start size := by
  apply ext_getElem?
  intro i
  rw [getElem?_window, getElem?_window]
  split
  next here =>
    rw [getElem?_poke inside]
    rcases apart with before | behind
    · rw [if_pos (by omega)]
    · rw [if_neg (by omega), if_neg (by omega)]
  next => rfl

theorem window_append (block : List α) (start m n : Nat) :
    window block start (m + n) = window block start m ++ window block (start + m) n := by
  rw [window, window, window, take_add, drop_drop]

theorem take_window (block : List α) {m : Nat} (less : m ≤ n) :
    (window block start n).take m = window block start m := by
  rw [window, take_take, Nat.min_eq_left less, window]

theorem drop_window (block : List α) (start m n : Nat) :
    (window block start n).drop m = window block (start + m) (n - m) := by
  rw [window, drop_take, drop_drop, window]

theorem window_of_append {more : List α} (inside : start + size ≤ block.length) :
    window (block ++ more) start size = window block start size := by
  rw [window, window, drop_append_of_le_length (by omega), take_append_of_le_length]
  rw [length_drop]
  omega

theorem window_of_take (inside : start + size ≤ n) : window (block.take n) start size = window block start size := by
  rw [window, drop_take, take_take, Nat.min_eq_left (by omega), window]

end Besra.Block
