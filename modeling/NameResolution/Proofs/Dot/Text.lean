import Mathlib.Data.List.Basic

namespace NameResolution.Dot

inductive Token where
  | word (text : String)
  | quoted (text : String)
  | arrow
  | sign (c : Char)
  deriving DecidableEq

/-- What has been begun and not ended yet. -/
inductive Mode where
  | between
  | word (text : List Char)
  | quoted (text : List Char)
  | escape (text : List Char)
  | dash

def isBlank (c : Char) : Bool := c = ' ' || c = '\t' || c = '\r' || c = '\n'

def isSign (c : Char) : Bool := ['\x7b', '\x7d', '[', ']', '=', ',', ';'].contains c

def isWordChar (c : Char) : Bool := c.isAlphanum || c = '_' || 128 ≤ c.toNat

def start (c : Char) : Option (List Token × Mode) :=
  if isBlank c then some ([], .between)
  else if c = '"' then some ([], .quoted [])
  else if c = '-' then some ([], .dash)
  else if isSign c then some ([.sign c], .between)
  else if isWordChar c then some ([], .word [c])
  else none

/-- The tokens that the character ends, and what is begun after it. -/
def step : Mode → Char → Option (List Token × Mode)
  | .between, c => start c
  | .word text, c =>
    if isWordChar c then some ([], .word (text ++ [c]))
    else (start c).map fun (ts, mode) => (.word (String.ofList text) :: ts, mode)
  | .quoted text, c =>
    if c = '"' then some ([.quoted (String.ofList text)], .between)
    else if c = '\\' then some ([], .escape text)
    else some ([], .quoted (text ++ [c]))
  | .escape text, c =>
    if c = '"' then some ([], .quoted (text ++ ['"']))
    else if c = '\n' then some ([], .quoted text)
    else some ([], .quoted (text ++ ['\\', c]))
  | .dash, c => if c = '>' then some ([.arrow], .between) else none

def scan : Mode → List Char → Option (List Token × Mode)
  | mode, [] => some ([], mode)
  | mode, c :: s => do
    let (ts, mode) ← step mode c
    let (us, mode) ← scan mode s
    return (ts ++ us, mode)

def Mode.close? : Mode → Option (List Token)
  | .between => some []
  | .word text => some [.word (String.ofList text)]
  | .quoted _ => none
  | .escape _ => none
  | .dash => none

def tokens? (text : String) : Option (List Token) := do
  let (ts, mode) ← scan .between text.toList
  return ts ++ (← mode.close?)

variable {mode mode' mode'' : Mode} {s t : List Char} {ts us : List Token} {c : Char}

section Scanning

/-- The characters lead from one mode to another and end these tokens. -/
def Scans (mode : Mode) (s : List Char) (ts : List Token) (mode' : Mode) : Prop :=
  scan mode s = some (ts, mode')

theorem scans_iff_cons :
    Scans mode (c :: s) ts mode'' ↔ ∃ us mode' vs, step mode c = some (us, mode') ∧
      Scans mode' s vs mode'' ∧ ts = us ++ vs := by
  unfold Scans
  rw [scan]
  cases step mode c with
  | none => simp
  | some p =>
    obtain ⟨us, mode'⟩ := p
    cases hs : scan mode' s with
    | none => simp [hs]
    | some q => simp [hs, Prod.ext_iff, eq_comm, and_comm]

theorem Scans.cons (hstep : step mode c = some (ts, mode')) (h : Scans mode' s us mode'') :
    Scans mode (c :: s) (ts ++ us) mode'' :=
  scans_iff_cons.mpr ⟨ts, mode', us, hstep, h, rfl⟩

theorem Scans.append (h : Scans mode s ts mode') (h' : Scans mode' t us mode'') :
    Scans mode (s ++ t) (ts ++ us) mode'' := by
  induction s generalizing mode ts with
  | nil =>
    cases h
    exact h'
  | cons c s ih =>
    obtain ⟨vs, mode₁, ws, hstep, hs, rfl⟩ := scans_iff_cons.mp h
    rw [List.cons_append, List.append_assoc]
    exact .cons hstep (ih hs)

theorem tokens?_of_scans {text : String} (h : Scans .between text.toList ts .between) :
    tokens? text = some ts := by
  rw [tokens?, show scan .between text.toList = _ from h]
  simp [Mode.close?]

end Scanning

section Words

theorem scans_word {w : List Char} (h : ∀ c ∈ s, isWordChar c = true) :
    Scans (.word w) s [] (.word (w ++ s)) := by
  induction s generalizing w with
  | nil => rw [List.append_nil]; rfl
  | cons c s ih =>
    obtain ⟨hc, hs⟩ := List.forall_mem_cons.mp h
    have hstep : step (.word w) c = some ([], .word (w ++ [c])) := by rw [step, if_pos hc]
    have htail := ih (w := w ++ [c]) hs
    rw [List.append_assoc] at htail
    exact .cons hstep htail

end Words

section Quotes

/-- Inside double quotes the text stands for itself and ends nowhere before its end. A character is
escaped by a backslash before it that is not escaped itself. -/
def isPlain (escaped : Bool) : List Char → Bool
  | [] => !escaped
  | c :: s => c ≠ '"' && !(escaped && c = '\n') && isPlain (!escaped && c = '\\') s

theorem isPlain_append {escaped : Bool} (hs : isPlain escaped s = true)
    (ht : isPlain false t = true) : isPlain escaped (s ++ t) = true := by
  induction s generalizing escaped with
  | nil =>
    cases escaped with
    | false => exact ht
    | true => cases hs
  | cons c s ih =>
    rw [isPlain, Bool.and_eq_true] at hs
    rw [List.cons_append, isPlain, hs.1, ih hs.2, Bool.true_and]

theorem not_mem_of_isPlain {escaped : Bool} (h : isPlain escaped s = true) : '"' ∉ s := by
  induction s generalizing escaped with
  | nil => exact List.not_mem_nil
  | cons c s ih =>
    simp only [isPlain, Bool.and_eq_true, decide_eq_true_eq] at h
    rw [List.mem_cons, not_or]
    exact ⟨Ne.symm h.1.1, ih h.2⟩

def Mode.inside (escaped : Bool) (text : List Char) : Mode :=
  if escaped then .escape text else .quoted text

def withBackslash (escaped : Bool) (text : List Char) : List Char :=
  if escaped then text ++ ['\\'] else text

theorem step_inside {escaped : Bool} {text : List Char} (hc : c ≠ '"')
    (hend : (escaped && c = '\n') = false) :
    ∃ text', step (.inside escaped text) c = some ([], .inside (!escaped && c = '\\') text') ∧
      withBackslash (!escaped && c = '\\') text' = withBackslash escaped text ++ [c] := by
  cases escaped with
  | false =>
    by_cases hslash : c = '\\'
    · refine ⟨text, ?_, ?_⟩ <;> simp [Mode.inside, withBackslash, step, hslash]
    · refine ⟨text ++ [c], ?_, ?_⟩ <;> simp [Mode.inside, withBackslash, step, hc, hslash]
  | true =>
    have hend : c ≠ '\n' := by simpa using hend
    refine ⟨text ++ ['\\', c], ?_, ?_⟩ <;> simp [Mode.inside, withBackslash, step, hc, hend]

theorem scans_inside {escaped : Bool} {text : List Char} (h : isPlain escaped s = true) :
    Scans (.inside escaped text) s [] (.quoted (withBackslash escaped text ++ s)) := by
  induction s generalizing escaped text with
  | nil =>
    cases escaped with
    | false => rw [List.append_nil]; rfl
    | true => cases h
  | cons c s ih =>
    simp only [isPlain, Bool.and_eq_true, decide_eq_true_eq, Bool.not_eq_true'] at h
    obtain ⟨text', hstep, htext⟩ := step_inside h.1.1 h.1.2
    have htail : Scans (.inside _ text') s [] _ := ih h.2
    rw [htext, List.append_assoc] at htail
    exact .cons hstep htail

/-- A plain text is read back from between double quotes. -/
theorem scans_quoted (h : isPlain false s = true) :
    Scans (.quoted []) (s ++ ['"']) [.quoted (String.ofList s)] .between := by
  have htext : Scans (.inside false []) s [] (.quoted s) := scans_inside h
  exact htext.append rfl

def Token.size : Token → ℕ
  | word text => text.length
  | quoted text => text.length + 1
  | arrow => 1
  | sign _ => 1

def Mode.size : Mode → ℕ
  | between => 0
  | word text => text.length
  | quoted text => text.length
  | escape text => text.length + 1
  | dash => 1

def size : List Token → ℕ
  | [] => 0
  | t :: ts => t.size + size ts

theorem size_append (ts us : List Token) : size (ts ++ us) = size ts + size us := by
  induction ts with
  | nil => exact (Nat.zero_add _).symm
  | cons t ts ih => rw [List.cons_append, size, size, ih, Nat.add_assoc]

theorem size_start (h : start c = some (ts, mode)) : size ts + mode.size ≤ 1 := by
  unfold start at h
  split at h
  · cases h; simp [size, Mode.size]
  · split at h
    · cases h; simp [size, Mode.size]
    · split at h
      · cases h; simp [size, Mode.size]
      · split at h
        · cases h; simp [size, Token.size, Mode.size]
        · split at h <;> cases h
          simp [size, Mode.size]

theorem size_step (h : step mode c = some (ts, mode')) :
    size ts + mode'.size ≤ mode.size + 1 := by
  cases mode with
  | between => simpa [Mode.size] using size_start h
  | word text =>
    rw [step] at h
    split at h
    · cases h
      simp [size, Mode.size]
    -- the character ends the word and begins something else
    · obtain ⟨⟨us, mode₁⟩, hstart, heq⟩ := Option.map_eq_some_iff.mp h
      cases heq
      have hsize := size_start hstart
      simp only [size, Token.size, String.length_ofList, Mode.size] at hsize ⊢
      omega
  | quoted text =>
    rw [step] at h
    split at h
    · cases h; simp [size, Token.size, Mode.size]
    · split at h <;> cases h <;> simp [size, Mode.size]
  | escape text =>
    rw [step] at h
    split at h
    · cases h; simp [size, Mode.size]
    · split at h <;> cases h <;> simp [size, Mode.size, Nat.add_assoc]
  | dash =>
    rw [step] at h
    split at h <;> cases h
    simp [size, Token.size, Mode.size]

theorem Scans.size_le (h : Scans mode s ts mode') :
    size ts + mode'.size ≤ mode.size + s.length := by
  induction s generalizing mode ts with
  | nil =>
    cases h
    simp [size]
  | cons c s ih =>
    obtain ⟨us, mode₁, vs, hstep, hs, rfl⟩ := scans_iff_cons.mp h
    have hhead := size_step hstep
    have htail := ih hs
    rw [size_append, List.length_cons]
    omega

/-- An escape that stands for less than it is written with is missing in what is read. -/
theorem not_scans_of_escape {text : List Char} (hc : c = '"' ∨ c = '\n') :
    ¬Scans (.escape text) (c :: s ++ ['"'])
      [.quoted (String.ofList (text ++ ['\\'] ++ c :: s))] .between := by
  intro h
  obtain ⟨us, mode, vs, hstep, hs, heq⟩ := scans_iff_cons.mp h
  have hshort : us = [] ∧ mode.size ≤ text.length + 1 := by
    rcases hc with rfl | rfl <;> cases hstep <;> simp [Mode.size]
  obtain ⟨rfl, hmode⟩ := hshort
  have hsize : size vs + 0 ≤ mode.size + (s ++ ['"']).length := hs.size_le
  rw [← show _ = vs from heq] at hsize
  simp only [size, Token.size, String.length_ofList, List.length_append, List.length_cons,
    List.length_nil] at hsize
  omega

theorem isPlain_of_scans {escaped : Bool} {text : List Char}
    (h : Scans (.inside escaped text) (s ++ ['"'])
      [.quoted (String.ofList (withBackslash escaped text ++ s))] .between) :
    isPlain escaped s = true := by
  induction s generalizing escaped text with
  | nil =>
    cases escaped with
    | false => rfl
    | true => cases h
  | cons c s ih =>
    by_cases hc : c = '"'
    · cases escaped with
      | false =>
        -- The string ends here, so what was read before is all of it.
        obtain ⟨us, mode, vs, hstep, -, heq⟩ := scans_iff_cons.mp h
        subst hc
        cases hstep
        have htext := Token.quoted.inj (List.cons.inj heq).1
        have hlength := congrArg String.length htext
        simp [withBackslash] at hlength
      | true => exact absurd h (not_scans_of_escape (.inl hc))
    · cases hend : escaped && c = '\n' with
      | true =>
        obtain ⟨rfl, hline⟩ := Bool.and_eq_true_iff.mp hend
        exact absurd h (not_scans_of_escape (.inr (of_decide_eq_true hline)))
      | false =>
        obtain ⟨us, mode, vs, hstep, hs, heq⟩ := scans_iff_cons.mp h
        obtain ⟨text', hstep', htext⟩ := step_inside hc hend
        cases hstep.symm.trans hstep'
        rw [List.append_cons, ← htext] at heq
        rw [← show _ = vs from heq] at hs
        simpa [isPlain, hc, hend] using ih hs

/-- Exactly the plain texts are read back from between double quotes. -/
theorem scans_quoted_iff :
    Scans (.quoted []) (s ++ ['"']) [.quoted (String.ofList s)] .between ↔
      isPlain false s = true :=
  ⟨fun h => isPlain_of_scans (show Scans (.inside false []) _ _ _ from h), scans_quoted⟩

end Quotes

end NameResolution.Dot
