import NameResolution.Text.Identifier

namespace NameResolution.Literal

open Text

def name? : List Char → Option (List Char × List Char)
  | [] => none
  | c :: s =>
    if isIdentifierStart c then
      some (c :: s.takeWhile isIdentifierContinue, s.dropWhile isIdentifierContinue)
    else none

def dropSuffix (s : List Char) : List Char :=
  match name? s with
  | some (_, rest) => rest
  | none => s

def hexDigit? (c : Char) : Option Nat :=
  if '0' ≤ c && c ≤ '9' then some (c.toNat - '0'.toNat)
  else if 'a' ≤ c && c ≤ 'f' then some (c.toNat - 'a'.toNat + 10)
  else if 'A' ≤ c && c ≤ 'F' then some (c.toNat - 'A'.toNat + 10)
  else none

/-- Strings of text, of bytes, and of bytes other than zero that end in a zero. -/
inductive Content where
  | text
  | bytes
  | zeroEnded
  deriving DecidableEq

def Content.allows : Content → Char → Bool
  | text, _ => true
  | bytes, c => c.toNat < 128
  | zeroEnded, c => c ≠ '\x00'

def codePoint? (digits value : Nat) : List Char → Option (Nat × List Char)
  | [] => none
  | c :: s =>
    if c = '}' then
      if digits > 0 ∧ Nat.isValidChar value then some (value, s) else none
    else if c = '_' then
      if digits > 0 then codePoint? digits value s else none
    else
      match hexDigit? c with
      | some d => if digits = 6 then none else codePoint? (digits + 1) (16 * value + d) s
      | none => none

def continueLine : (afterReturn : Bool) → List Char → Option (List Char)
  | true, '\n' :: s => continueLine false s
  | true, _ => none
  | false, [] => none
  | false, c :: s =>
    if c = '\r' then continueLine true s
    else if c = ' ' || c = '\t' || c = '\n' then continueLine false s
    else some (c :: s)

/-- What follows the escape after a backslash; `multiline` admits a line end there. -/
def escape? (content : Content) (multiline : Bool) : List Char → Option (List Char)
  | 'x' :: a :: b :: s =>
    match hexDigit? a, hexDigit? b with
    | some h, some l =>
      match content with
      | .text => if h < 8 then some s else none
      | .bytes => some s
      | .zeroEnded => if h = 0 ∧ l = 0 then none else some s
    | _, _ => none
  | 'u' :: '{' :: s =>
    if content = .bytes then none else
    match codePoint? 0 0 s with
    | some (value, rest) => if content = .zeroEnded ∧ value = 0 then none else some rest
    | none => none
  | c :: s =>
    if multiline && c = '\n' then continueLine false s
    else if multiline && c = '\r' then continueLine true s
    else if "nrt\\'\"".toList.contains c || (c = '0' && content ≠ .zeroEnded) then some s
    else none
  | [] => none

def cooked? (content : Content) (s : List Char) : Option (List Char) :=
  match s with
  | [] => none
  | c :: s =>
    if c = '"' then some s
    else if c = '\r' then
      match s with
      | '\n' :: s => cooked? content s
      | _ => none
    else if c = '\\' then
      match escape? content true s with
      | some rest => if rest.length ≤ s.length then cooked? content rest else none
      | none => none
    else if content.allows c then cooked? content s
    else none
termination_by s.length
decreasing_by all_goals simp only [List.length_cons]; omega

def raw? (content : Content) (hashes : Nat) : List Char → Option (List Char)
  | [] => none
  | '\r' :: '\n' :: s => raw? content hashes s
  | c :: s =>
    if c = '\r' then none
    else if c = '"' && s.take hashes = List.replicate hashes '#' then some (s.drop hashes)
    else if content.allows c then raw? content hashes s
    else none

def rawString? (content : Content) (s : List Char) : Option (List Char) :=
  let hashes := (s.takeWhile (· = '#')).length
  match s.dropWhile (· = '#') with
  | '"' :: body => if hashes ≤ 255 then raw? content hashes body else none
  | _ => none

def string? : List Char → Option (List Char)
  | '"' :: s => cooked? .text s
  | 'r' :: s => rawString? .text s
  | 'b' :: '"' :: s => cooked? .bytes s
  | 'b' :: 'r' :: s => rawString? .bytes s
  | 'c' :: '"' :: s => cooked? .zeroEnded s
  | 'c' :: 'r' :: s => rawString? .zeroEnded s
  | _ => none

def quotedChar? (content : Content) : List Char → Option (List Char)
  | [] => none
  | c :: s =>
    let rest := if c = '\\' then escape? content false s
      else if content.allows c then some s else none
    match rest with
    | some ('\'' :: rest) => some rest
    | _ => none

def character? : List Char → Option (List Char)
  | 'b' :: '\'' :: s => quotedChar? .bytes s
  | '\'' :: s => quotedChar? .text s
  | _ => none

def isDigit (c : Char) : Bool := '0' ≤ c && c ≤ '9'

/-- The digits before an exponent: whether they hold a point, and what follows them. -/
def mantissa? (pointed : Bool) : List Char → Option (Bool × List Char)
  | [] => some (pointed, [])
  | c :: s =>
    if isDigit c || c = '_' then mantissa? pointed s
    else if c = '.' && !pointed then
      match s with
      | [] => some (true, [])
      | d :: _ => if d = '.' || isIdentifierStart d then none else mantissa? true s
    else some (pointed, c :: s)

/-- What follows the digits of an exponent, of which there is at least one. -/
def exponent? (signed valued : Bool) : List Char → Option (List Char)
  | [] => if valued then some [] else none
  | c :: s =>
    if isDigit c then exponent? signed true s
    else if c = '_' then exponent? signed valued s
    else if valued then some (c :: s)
    else if (c = '+' || c = '-') && !signed then exponent? true false s
    else none

def floatDigits? (s : List Char) : Option (List Char) :=
  match s with
  | [] => none
  | c :: s =>
    if !isDigit c then none else
    match mantissa? false s with
    | none => none
    | some (pointed, rest) =>
      let unscaled := if pointed then some rest else none
      match rest with
      | e :: power => if e = 'e' || e = 'E' then (exponent? false false power).or unscaled
        else unscaled
      | [] => unscaled

def digits? (base : Nat) (found : Bool) : List Char → Option (List Char)
  | [] => if found then some [] else none
  | c :: s =>
    let stop := if found then some (c :: s) else none
    if c = '_' then if !found && base = 10 then none else digits? base found s
    else
      match hexDigit? c with
      | some d =>
        if d < base then digits? base true s
        else if isDigit c then none
        else stop
      | none => stop

def integerDigits? : List Char → Option (List Char)
  | '0' :: 'x' :: s => digits? 16 false s
  | '0' :: 'o' :: s => digits? 8 false s
  | '0' :: 'b' :: s => digits? 2 false s
  | s => digits? 10 false s

/-- Leaves out a suffix; a number does not run on into a name. -/
def endNumber? (s : List Char) : Option (List Char) :=
  match dropSuffix s with
  | [] => some []
  | c :: rest => if isIdentifierContinue c then none else some (c :: rest)

def number? (s : List Char) : Option (List Char) :=
  ((floatDigits? s).bind endNumber?).or ((integerDigits? s).bind endNumber?)

def any? (s : List Char) : Option (List Char) :=
  (((string? s).map dropSuffix).or ((character? s).map dropSuffix)).or (number? s)

def isSuffix : List Char → Bool
  | [] => true
  | c :: s => isIdentifierStart c && s.all isIdentifierContinue

/-- Whether a mark of an exponent is followed by digits, so that the number is no integer. -/
def isExponent (s : List Char) : Bool :=
  let rest := s.dropWhile (· = '_')
  match rest with
  | [] => false
  | c :: _ =>
    if c = '+' || c = '-' then true
    else isDigit c && isSuffix ((rest.dropWhile fun d => isDigit d || d = '_'))

def valueFrom? (base : Nat) (found : Bool) (value : Nat) : List Char → Option Nat
  | [] => if found then some value else none
  | c :: s =>
    let stop := if found && isSuffix (c :: s) then some value else none
    if c = '_' then valueFrom? base found value s
    else if base = 10 && c = '.' then none
    else if base = 10 && (c = 'e' || c = 'E') then if isExponent s then none else stop
    else
      match hexDigit? c with
      | some d =>
        if d < base then valueFrom? base true (base * value + d) s
        else if isDigit c || base = 16 then none
        else stop
      | none => stop

def integerValue? : List Char → Option Nat
  | '0' :: 'x' :: s => valueFrom? 16 false 0 s
  | '0' :: 'o' :: s => valueFrom? 8 false 0 s
  | '0' :: 'b' :: s => valueFrom? 2 false 0 s
  | c :: s => if isDigit c then valueFrom? 10 false 0 (c :: s) else none
  | [] => none

end NameResolution.Literal
