import Mathlib.Data.Nat.Digits.Lemmas

/-!
# Positional numerals over an alphabet

A number is written in base `b` as a string of symbols, most significant first, with the single
symbol of `0` for zero. `readFrom` is the accumulating scanner that reads such a string back. The
alphabet enters through two functions only, the symbol of a digit and the digit of a symbol, and the
round trip `read_write` needs nothing but that the second undoes the first below the base.
-/

namespace Numerals

variable {α : Type*}

/-- The numeral of `n` in base `b`, most significant symbol first. -/
def write (b : ℕ) (symbol : ℕ → α) (n : ℕ) : List α :=
  if n = 0 then [symbol 0] else (b.digits n).reverse.map symbol

/-- Scan a string of symbols with the accumulator `acc`; `none` at a symbol that is no digit. -/
def readFrom (b : ℕ) (digit : α → Option ℕ) : ℕ → List α → Option ℕ
  | acc, [] => some acc
  | acc, c :: cs => (digit c).bind fun d ↦ readFrom b digit (b * acc + d) cs

/-- Read a numeral; the empty string is none. -/
def read (b : ℕ) (digit : α → Option ℕ) : List α → Option ℕ
  | [] => none
  | c :: cs => readFrom b digit 0 (c :: cs)

variable {b : ℕ} {symbol : ℕ → α} {digit : α → Option ℕ}

theorem readFrom_append (acc : ℕ) (cs ds : List α) :
    readFrom b digit acc (cs ++ ds) = (readFrom b digit acc cs).bind (readFrom b digit · ds) := by
  induction cs generalizing acc with
  | nil => rfl
  | cons c cs ih =>
    rw [List.cons_append, readFrom, readFrom, Option.bind_assoc]
    congr 1
    funext d
    exact ih _

theorem readFrom_map_symbol (hdigit : ∀ d < b, digit (symbol d) = some d) (ds : List ℕ)
    (hds : ∀ d ∈ ds, d < b) :
    readFrom b digit 0 (ds.reverse.map symbol) = some (Nat.ofDigits b ds) := by
  induction ds with
  | nil => rfl
  | cons d ds ih =>
    rw [List.reverse_cons, List.map_append, readFrom_append,
      ih fun e he ↦ hds e (List.mem_cons_of_mem d he), Option.bind_some, List.map_singleton,
      readFrom, hdigit d (hds d List.mem_cons_self), Option.bind_some, readFrom,
      Nat.ofDigits_cons, Nat.add_comm]

theorem write_ne_nil (n : ℕ) : write b symbol n ≠ [] := by
  rw [write]
  split
  · simp
  · rename_i hn
    have h := Nat.digits_ne_nil_iff_ne_zero (b := b).mpr hn
    simpa using h

theorem mem_write (hb : 1 < b) {n : ℕ} {c : α} (hc : c ∈ write b symbol n) :
    ∃ d < b, c = symbol d := by
  rw [write] at hc
  split at hc
  · exact ⟨0, by omega, List.mem_singleton.mp hc⟩
  · obtain ⟨d, hd, rfl⟩ := List.mem_map.mp hc
    exact ⟨d, Nat.digits_lt_base hb (List.mem_reverse.mp hd), rfl⟩

/-- **Round trip**: reading a numeral gives back the number it was written for. -/
theorem read_write (hb : 1 < b) (hdigit : ∀ d < b, digit (symbol d) = some d) (n : ℕ) :
    read b digit (write b symbol n) = some n := by
  have hread : ∀ cs : List α, cs ≠ [] → read b digit cs = readFrom b digit 0 cs := by
    intro cs hcs
    cases cs with
    | nil => exact absurd rfl hcs
    | cons c cs => rfl
  rw [hread _ (write_ne_nil n), write]
  split
  · rename_i hn
    rw [hn, readFrom, hdigit 0 (by omega), Option.bind_some, readFrom, Nat.mul_zero]
  · rw [readFrom_map_symbol hdigit _ fun d hd ↦ Nat.digits_lt_base hb hd, Nat.ofDigits_digits]

end Numerals
