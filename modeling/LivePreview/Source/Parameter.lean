import LivePreview.Source.Bracket

/-! Type annotations in parameter lists.

A parameter is a binding, possibly an annotation after `:`, possibly a default after `=`. Text that holds a
quote or an angle bracket other than that of an arrow is markup or a string and no parameter list. -/
namespace LivePreview.Source

/-- A quote or an angle bracket outside the arrows. -/
def looksLikeMarkup : List Char → Bool
  | [] => false
  | '=' :: '>' :: r => looksLikeMarkup r
  | c :: r => c == '\'' || c == '"' || c == '`' || c == '<' || c == '>' || looksLikeMarkup r

/-- An equals sign that starts no arrow, where `r` follows it. -/
def isDefaultSign (c : Char) (r : List Char) : Bool := c == '=' && r.head? != some '>'

/-- The parameter without its annotation, or nothing when it has none. -/
def untypedParameter? (p : List Char) : Option (List Char) :=
  match cutAt (fun c r => c == ':' || isDefaultSign c r) 0 p with
  | some (binding, ':' :: note) =>
    let kept := Text.trimEnd ((Text.trimEnd binding).reverse.dropWhile (· == '?')).reverse
    match cutAt isDefaultSign 0 note with
    | some (_, value) => some (kept ++ ' ' :: Text.trimStart value)
    | none => some (kept ++ (p.reverse.takeWhile Text.isSpace).reverse)
  | _ => none

/-- The list without its annotations, or nothing when it has none or looks like markup. -/
def stripParameterTypes (list : List Char) : Option (List Char) :=
  if looksLikeMarkup list then none
  else
    let parts := (splitCommas 0 list).map fun p => (p, untypedParameter? p)
    if parts.any (·.2.isSome) then some ([','].intercalate (parts.map fun (p, q) => q.getD p)) else none

end LivePreview.Source
