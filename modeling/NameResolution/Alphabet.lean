namespace NameResolution

universe u
variable {σ : Type u} [DecidableEq σ]

structure Alphabet (σ : Type u) where
  symbols : List σ
  nodup : symbols.Nodup

namespace Alphabet

instance : DecidableEq (Alphabet σ) := fun a b =>
  decidable_of_iff (a.symbols = b.symbols) (by cases a; cases b; simp)

instance : Membership σ (Alphabet σ) := ⟨fun alphabet a => a ∈ alphabet.symbols⟩

instance (a : σ) (alphabet : Alphabet σ) : Decidable (a ∈ alphabet) :=
  inferInstanceAs (Decidable (a ∈ alphabet.symbols))

def empty : Alphabet σ := ⟨[], .nil⟩

def push (alphabet : Alphabet σ) (a : σ) : Alphabet σ :=
  if h : a ∈ alphabet.symbols then alphabet
  else ⟨alphabet.symbols ++ [a], by
    rw [List.nodup_append]
    exact ⟨alphabet.nodup, by simp, by
      intro x hx y hy
      rw [List.mem_singleton] at hy
      exact fun e => h (hy ▸ e ▸ hx)⟩⟩

def ofList (symbols : List σ) : Alphabet σ := symbols.foldl push empty

/-- The position of `a`; of all symbols outside the alphabet it is the size. -/
def position (alphabet : Alphabet σ) (a : σ) : Nat := alphabet.symbols.idxOf a

def position? (alphabet : Alphabet σ) (a : σ) : Option Nat :=
  if a ∈ alphabet then some (alphabet.position a) else none

def get? (alphabet : Alphabet σ) (i : Nat) : Option σ := alphabet.symbols[i]?

def size (alphabet : Alphabet σ) : Nat := alphabet.symbols.length

def isEmpty (alphabet : Alphabet σ) : Bool := alphabet.symbols.isEmpty

def render (symbol : σ → String) (alphabet : Alphabet σ) : String :=
  "\x7b" ++ ", ".intercalate (alphabet.symbols.map symbol) ++ "\x7d"

omit [DecidableEq σ] in
theorem mem_def {alphabet : Alphabet σ} {a : σ} : a ∈ alphabet ↔ a ∈ alphabet.symbols := Iff.rfl

theorem position_lt {alphabet : Alphabet σ} {a : σ} (h : a ∈ alphabet) :
    alphabet.position a < alphabet.size := List.idxOf_lt_length_of_mem h

theorem getElem?_position {alphabet : Alphabet σ} {a : σ} (h : a ∈ alphabet) :
    alphabet.symbols[alphabet.position a]? = some a := by
  have hl : alphabet.position a < alphabet.symbols.length := position_lt h
  rw [List.getElem?_eq_getElem hl]
  exact congrArg some (List.getElem_idxOf hl)

theorem position_inj {alphabet : Alphabet σ} {a b : σ} (ha : a ∈ alphabet) (hb : b ∈ alphabet)
    (h : alphabet.position a = alphabet.position b) : a = b := by
  have e := getElem?_position ha
  rw [h, getElem?_position hb] at e
  exact (Option.some.inj e).symm

end Alphabet

end NameResolution
