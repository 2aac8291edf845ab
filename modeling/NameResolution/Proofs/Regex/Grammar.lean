import NameResolution.Regex.Parser

namespace NameResolution.Regex

inductive Phrase where
  | expression
  | conjunction
  | sequence
  | unary
  | negated
  | postfixed
  | atom

inductive Segments : List Token → List String → Prop
  | nil : Segments [] []
  | cons {name : String} {joint : Bool} {tokens : List Token} {names : List String}
      (h : isSegment name = true) (rest : Segments tokens names) :
      Segments (.punctuation ':' true :: .punctuation ':' joint :: .identifier name :: tokens)
        (name :: names)

/-- The tokens are a phrase of the kind, and the expression is its tree.

    expression  := conjunction | expression '|' conjunction
    conjunction := sequence | conjunction '&' sequence
    sequence    := unary | unary sequence
    unary       := '~' negated | postfixed
    negated     := '~' negated | atom
    postfixed   := atom | postfixed '*' | postfixed '+' | postfixed '?'
    atom        := '0' | 'e' | label | '(' expression ')' -/
inductive Derives : Phrase → List Token → Regex Symbol → Prop
  | factor {ts : List Token} {r : Regex Symbol} (h : Derives .conjunction ts r) :
      Derives .expression ts r
  | or {ts us : List Token} {joint : Bool} {l r : Regex Symbol}
      (hl : Derives .expression ts l) (hr : Derives .conjunction us r) :
      Derives .expression (ts ++ .punctuation '|' joint :: us) (.or l r)
  | word {ts : List Token} {r : Regex Symbol} (h : Derives .sequence ts r) :
      Derives .conjunction ts r
  | and {ts us : List Token} {joint : Bool} {l r : Regex Symbol}
      (hl : Derives .conjunction ts l) (hr : Derives .sequence us r) :
      Derives .conjunction (ts ++ .punctuation '&' joint :: us) (.and l r)
  | last {ts : List Token} {r : Regex Symbol} (h : Derives .unary ts r) : Derives .sequence ts r
  | concat {ts us : List Token} {l r : Regex Symbol}
      (hl : Derives .unary ts l) (hr : Derives .sequence us r) :
      Derives .sequence (ts ++ us) (.concat l r)
  | not {ts : List Token} {joint : Bool} {r : Regex Symbol} (h : Derives .negated ts r) :
      Derives .unary (.punctuation '~' joint :: ts) (.complement r)
  | unnegated {ts : List Token} {r : Regex Symbol} (h : Derives .postfixed ts r) :
      Derives .unary ts r
  | notAgain {ts : List Token} {joint : Bool} {r : Regex Symbol} (h : Derives .negated ts r) :
      Derives .negated (.punctuation '~' joint :: ts) (.complement r)
  | once {ts : List Token} {r : Regex Symbol} (h : Derives .atom ts r) : Derives .negated ts r
  | bare {ts : List Token} {r : Regex Symbol} (h : Derives .atom ts r) : Derives .postfixed ts r
  | star {ts : List Token} {joint : Bool} {r : Regex Symbol} (h : Derives .postfixed ts r) :
      Derives .postfixed (ts ++ [.punctuation '*' joint]) (.star r)
  | plus {ts : List Token} {joint : Bool} {r : Regex Symbol} (h : Derives .postfixed ts r) :
      Derives .postfixed (ts ++ [.punctuation '+' joint]) (.concat r (.star r))
  | optional {ts : List Token} {joint : Bool} {r : Regex Symbol} (h : Derives .postfixed ts r) :
      Derives .postfixed (ts ++ [.punctuation '?' joint]) (.or .emptyString r)
  | zero {text : String} : Derives .atom [.integer text 0] .emptySet
  | empty : Derives .atom [.identifier "e"] .emptyString
  | label {name : String} {ts : List Token} {names : List String} (h : isLabelName name = true)
      (hs : Segments ts names) (hne : name :: names ≠ ["e"]) :
      Derives .atom (.identifier name :: ts) (.symbol ⟨"::".intercalate (name :: names)⟩)
  | group {ts : List Token} {r : Regex Symbol} (h : Derives .expression ts r) :
      Derives .atom [.group .parenthesis ts] r

end NameResolution.Regex
