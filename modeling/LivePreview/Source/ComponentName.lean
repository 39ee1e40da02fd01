import LivePreview.Pattern.Basic

/-! The name of the component a source defines.

Names start with a Latin capital. A binding anywhere in the source wins over a function, and a function over a
name that is only exported. -/
namespace LivePreview.Source
open Pattern

/-- The kind of declaration a component's name was found in. -/
inductive NameKind where
  | binding
  | function
  | exported
deriving DecidableEq, Repr

/-- A component's name and where it was found. -/
structure ComponentName where
  name : List Char
  kind : NameKind
deriving DecidableEq, Repr

/-- A capital, then letters, digits, `_` and `$`. -/
def componentIdent : Pattern :=
  .one (fun c => 'A' ≤ c && c ≤ 'Z') ++ .many (fun c => Text.isPlainName c || c == '$') true

/-- `const Name =`, `let Name:` and the like, exported or not. -/
def bindingDeclaration : Pattern :=
  opt (.at .wordEdge ++ lit "export" ++ gap) ++ .at .wordEdge ++ words ["const", "let", "var"] ++ gap ++
    .group 1 componentIdent ++ spaces ++ .one (among ":=")

/-- `function Name`, also `async`, generator, exported or the default export. -/
def functionDeclaration : Pattern :=
  opt (.at .wordEdge ++ lit "export" ++ gap ++ opt (lit "default" ++ gap)) ++ .at .wordEdge ++
    opt (lit "async" ++ gap) ++ lit "function" ++ spaces ++ opt (lit "*") ++ spaces ++ .group 1 componentIdent

/-- `export default Name`, or the first name of `export { Name`. -/
def exportedName : Pattern :=
  .at .wordEdge ++ lit "export" ++ gap ++
    ((lit "default" ++ gap ++ .group 1 componentIdent) ||| (lit "\x7b" ++ spaces ++ .group 2 componentIdent))

/-- The component's name in a source, and the kind of declaration it was found in. -/
def componentName? (s : List Char) : Option ComponentName :=
  match bindingDeclaration.find? s with
  | some m => some ⟨m.group 1, .binding⟩
  | none => match functionDeclaration.find? s with
    | some m => some ⟨m.group 1, .function⟩
    | none => (exportedName.find? s).map fun m =>
      ⟨if m.hasGroup 1 then m.group 1 else m.group 2, .exported⟩

end LivePreview.Source
