import NameResolution.Text.Quoted

namespace NameResolution

structure Symbol where
  name : String
  deriving DecidableEq

def Symbol.render (s : Symbol) : String :=
  "Symbol \x7b name: " ++ Text.quoted s.name ++ " \x7d"

end NameResolution
