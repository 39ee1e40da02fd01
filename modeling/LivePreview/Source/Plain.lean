import LivePreview.Source.Fence
import LivePreview.Source.Mask
import LivePreview.Source.Parameter

/-! Typed component sources as plain programs.

A fixed sequence of rewrites takes type syntax, imports and exports out of a source. None of them knows the
grammar of the language, and their order matters: later ones rely on imports, declarations and generic
parameter lists being gone. Rewrites that would match ordinary prose run with the literals hidden. -/
namespace LivePreview.Source
open Pattern

/-- The start of a line with its blanks. -/
def lineHead : Pattern := .at .lineStart ++ blanks

/-- The end of a statement: perhaps a semicolon, blanks, and the end of the line. -/
def statementEnd : Pattern := blanks ++ opt (lit ";") ++ blanks ++ lineEnd

/-- The rest of the line, without its end. -/
def lineRest : Pattern := .many (except "\n") true

/-! ### Imports -/

/-- A quoted module name that is not empty. -/
def moduleName : Pattern := .one (among "'\"") ++ several (except "'\"\n") true ++ .one (among "'\"")

def typeImport : Pattern :=
  lineHead ++ lit "import" ++ gap ++ lit "type" ++ .one Text.isSpace ++ .many (except ";'\"") false ++
    .at .wordEdge ++ lit "from" ++ spaces ++ moduleName ++ statementEnd

def namedImport : Pattern :=
  lineHead ++ lit "import" ++ gap ++ .many (except ";'\"") false ++
    .at .wordEdge ++ lit "from" ++ spaces ++ moduleName ++ statementEnd

def sideEffectImport : Pattern := lineHead ++ lit "import" ++ spaces ++ moduleName ++ statementEnd

def removeImports (s : List Char) : List Char :=
  sideEffectImport.removeAll (namedImport.removeAll (typeImport.removeAll s))

/-! ### Interfaces -/

/-- The head of an interface up to its opening brace. -/
def interfaceHead : Pattern :=
  lineHead ++ opt (lit "export" ++ gap ++ opt (lit "default" ++ gap)) ++ opt (lit "declare" ++ gap) ++
    lit "interface" ++ gap ++ name ++ .many (except "\x7b\n") true ++ lit "\x7b"

def interfaceLine : Pattern := interfaceHead ++ lineRest ++ lit "\x7d" ++ statementEnd

/-- An interface over several lines, up to the first line that holds only its closing brace. -/
def interfaceBlock : Pattern :=
  interfaceHead ++ blanks ++ opt (lit "\r") ++ lit "\n" ++ .many (fun _ => true) false ++ lineHead ++ lit "\x7d" ++
    statementEnd

def removeInterfaces (s : List Char) : List Char := interfaceBlock.removeAll (interfaceLine.removeAll s)

/-! ### Type aliases -/

/-- The head of an alias up to its equals sign and the blanks after it. -/
def aliasHead : Pattern :=
  lineHead ++ opt (lit "export" ++ gap) ++ opt (lit "declare" ++ gap) ++ lit "type" ++ gap ++ name ++
    opt (lit "<" ++ .many (except "\n") false ++ lit ">") ++ blanks ++ lit "=" ++ blanks

/-- A line that goes on with `|` or `&`. -/
def aliasContinuation : Pattern := blanks ++ .one (among "|&") ++ lineRest ++ lineEnd

def aliasBlock : Pattern :=
  aliasHead ++ lit "\x7b" ++ blanks ++ opt (lit "\r") ++ lit "\n" ++ .many (fun _ => true) false ++ lineHead ++
    lit "\x7d" ++ lineRest ++ lineEnd

def aliasUnion : Pattern :=
  aliasHead ++ opt (lit "\r") ++ lit "\n" ++ (aliasContinuation ++ .star aliasContinuation true)

def aliasLine : Pattern :=
  aliasHead ++
    ((.one (fun c => !Text.isSpace c && c != '{') ++ lineRest) |||
      (lit "\x7b" ++ lineRest ++ lit "\x7d" ++ lineRest)) ++
    lineEnd ++ .star aliasContinuation true

def removeTypeAliases (s : List Char) : List Char :=
  aliasLine.removeAll (aliasUnion.removeAll (aliasBlock.removeAll s))

/-! ### Exports -/

def exportDefaultName : Pattern :=
  lineHead ++ lit "export" ++ gap ++ lit "default" ++ gap ++ name ++ statementEnd

def exportList : Pattern :=
  lineHead ++ lit "export" ++ spaces ++ opt (lit "type" ++ spaces) ++ lit "\x7b" ++ .many (except "\x7d") true ++
    lit "\x7d" ++
    opt (spaces ++ lit "from" ++ spaces ++ .one (among "'\"") ++ .many (except "'\"\n") true ++
      .one (among "'\"")) ++ statementEnd

def exportQualifier : Pattern :=
  .at .lineStart ++ .group 1 blanks ++ lit "export" ++ gap ++ opt (lit "default" ++ gap)

def stripExports (s : List Char) : List Char :=
  exportQualifier.replaceAll (·.group 1) (exportList.removeAll (exportDefaultName.removeAll s))

/-! ### Types of components -/

def componentTypes : List String :=
  ["FC", "FunctionComponent", "VFC", "VoidFunctionComponent", "SFC", "ComponentType", "ElementType",
    "NamedExoticComponent", "ForwardRefExoticComponent", "MemoExoticComponent"]

def typedComponent : Pattern :=
  .at .wordEdge ++
    .group 1 (words ["const", "let", "var"] ++ gap ++ .one (fun c => 'A' ≤ c && c ≤ 'Z') ++
      .many Text.isNameChar true) ++
    spaces ++ lit ":" ++ spaces ++ opt (lit "React" ++ spaces ++ lit "." ++ spaces) ++ words componentTypes ++
    .at .wordEdge ++ opt (spaces ++ lit "<" ++ .many (except "\n") false ++ lit ">") ++ spaces ++ lit "="

def stripComponentTypes (s : List Char) : List Char :=
  typedComponent.replaceAll (fun m => m.group 1 ++ " =".toList) s

/-! ### Generic parameter lists -/

/-- Text without brackets of generics and calls. -/
def flat : Pattern := .many (except "<>()\n") true

/-- A list in angle brackets, nested at most once, after its flat start. -/
def nestedOnce : Pattern := flat ++ .star (lit "<" ++ flat ++ lit ">" ++ flat) true

def functionGenerics : Pattern :=
  .group 1 (.at .wordEdge ++ lit "function" ++ spaces ++ opt (lit "*") ++ spaces ++ name) ++ spaces ++
    lit "<" ++ nestedOnce ++ lit ">" ++ spaces ++ lit "("

/-- Generics of an arrow function: a comma or an `extends` tells them from an element. -/
def arrowGenerics : Pattern :=
  .group 1 (.one (among "=(,:?") ++ spaces ++ opt (lit "async" ++ gap)) ++ lit "<" ++ spaces ++ name ++ spaces ++
    ((lit "," ++ flat) ||| (gap ++ lit "extends" ++ gap ++ nestedOnce)) ++ lit ">" ++ spaces ++ lit "("

def stripGenericParameters (s : List Char) : List Char :=
  arrowGenerics.replaceAll (fun m => m.group 1 ++ ['(']) (functionGenerics.replaceAll (fun m => m.group 1 ++ ['(']) s)

/-! ### Return types -/

/-- A type between a parameter list and an arrow or a body. -/
def returnType : Pattern :=
  lit ")" ++ blanks ++ lit ":" ++ blanks ++ .one (fun c => Text.isNameStart c || among "'\"" c) ++
    .many (except "=;\x7b\x7d()\n") false ++ blanks ++ .group 1 (lit "=>" ||| lit "\x7b")

def stripReturnTypes (s : List Char) : List Char :=
  returnType.replaceAll (fun m => ") ".toList ++ m.group 1) s

/-! ### Parameter annotations -/

def arrowParameters : Pattern := lit ")" ++ spaces ++ lit "=>"

def functionParameters : Pattern :=
  .at .wordEdge ++ lit "function" ++ spaces ++ opt (lit "*") ++ spaces ++ opt name ++ spaces ++ lit "("

def callbackParameters : Pattern :=
  .at .wordEdge ++
    words ["useState", "useReducer", "useMemo", "useCallback", "useEffect", "useLayoutEffect"] ++
    spaces ++ lit "(" ++ spaces ++ opt (lit "async" ++ spaces) ++ opt (lit "function" ++ spaces) ++ lit "("

/-- New text for what stands between the parentheses at `start` and `stop`. -/
structure ParameterEdit where
  start : Nat
  stop : Nat
  replacement : List Char
deriving DecidableEq, Repr

/-- The edit of the list between two parentheses, if it has annotations. -/
def parameterEdit? (s : List Char) (start stop : Nat) : Option ParameterEdit :=
  (stripParameterTypes ((s.take stop).drop (start + 1))).map (⟨start, stop, ·⟩)

/-- The edits of all parameter lists, found back from arrows and on from heads of functions and callbacks. -/
def parameterEdits (s : List Char) : List ParameterEdit :=
  ((arrowParameters.findAll s).filterMap fun m =>
    (openingParen? s m.start).bind fun start => parameterEdit? s start m.start) ++
  ((functionParameters.findAll s ++ callbackParameters.findAll s).filterMap fun m =>
    (closingParen? s (m.stop - 1)).bind fun stop => parameterEdit? s (m.stop - 1) stop)

/-- Earlier lists first and of those that start together the longer one, so that outer lists come before those
nested in them. -/
def ParameterEdit.before (a b : ParameterEdit) : Bool := a.start < b.start || (a.start == b.start && b.stop ≤ a.stop)

/-- Applies the edits, which are in order, to the text from `pos` on; an edit inside one already made is
skipped. -/
def applyEdits (pos : Nat) (rest : List Char) : List ParameterEdit → List Char
  | [] => rest
  | e :: edits =>
    if e.start < pos then applyEdits pos rest edits
    else rest.take (e.start + 1 - pos) ++ e.replacement ++ applyEdits e.stop (rest.drop (e.stop - pos)) edits

def stripParameterLists (s : List Char) : List Char :=
  applyEdits 0 s ((parameterEdits s).mergeSort ParameterEdit.before)

/-! ### Assertions -/

def constAssertion : Pattern := gap ++ lit "as" ++ gap ++ lit "const" ++ .at .wordEdge

/-- The square brackets of array types, if any. -/
def arrayMarks : Pattern := .star (lit "[]") true

def typeAssertion : Pattern :=
  .group 1 (.one fun c => Text.isNameChar c || among ")]\x7d" c) ++ gap ++ words ["as", "satisfies"] ++ gap ++
    name ++ .star (lit "." ++ name) true ++ opt (lit "<" ++ .many (except ";\n") false ++ lit ">") ++ arrayMarks ++
    .star (spaces ++ lit "|" ++ spaces ++ name ++ arrayMarks) true ++
    .group 2 (blanks ++ .one (among ")];,\x7d"))

def nonNullAssertion : Pattern :=
  .group 1 (.one fun c => Text.isNameChar c || among ")]" c) ++ lit "!" ++ .group 2 (.one (among ".["))

/-- One round over the text: the last link of each chain of assertions goes. -/
def dropAssertions (s : List Char) : List Char :=
  typeAssertion.replaceAll (fun m => m.group 1 ++ m.group 2) s

/-- Rounds until one changes nothing. -/
def dropAssertionChains (s : List Char) : List Char :=
  if (dropAssertions s).length < s.length then dropAssertionChains (dropAssertions s) else s
termination_by s.length

def stripTypeAssertions (s : List Char) : List Char :=
  nonNullAssertion.replaceAll (fun m => m.group 1 ++ m.group 2)
    (dropAssertionChains (constAssertion.removeAll s))

/-! ### Variable annotations -/

/-- What a declaration binds: a name or a pattern without nesting. -/
def binder : Pattern :=
  name ||| (lit "\x7b" ++ .many (except "\x7b\x7d") true ++ lit "\x7d") |||
    (lit "[" ++ .many (except "[]") true ++ lit "]")

def annotationPiece : Pattern := .one (except "=;\n") ||| lit "=>"

def typedBinding : Pattern :=
  .at .wordEdge ++ .group 1 (words ["const", "let", "var"]) ++ .group 2 (gap ++ binder) ++ spaces ++ lit ":" ++
    spaces ++ annotationPiece ++ .star annotationPiece false ++ spaces ++ lit "=" ++ .group 3 (.one (except "=>"))

def typedDeclaration : Pattern :=
  .at .wordEdge ++ .group 1 (words ["let", "var"]) ++ .group 2 (gap ++ name) ++ spaces ++ lit ":" ++ spaces ++
    several (except "=;\n") true ++ lit ";"

def stripVariableTypes (s : List Char) : List Char :=
  typedDeclaration.replaceAll (fun m => m.group 1 ++ m.group 2 ++ [';'])
    (typedBinding.replaceAll (fun m => m.group 1 ++ m.group 2 ++ " =".toList ++ m.group 3) s)

/-! ### Type arguments of built-in hooks -/

def hookNames : List String :=
  ["useState", "useRef", "useMemo", "useCallback", "useReducer", "useContext", "createContext", "forwardRef", "memo"]

def hookGenerics : Pattern := .at .wordEdge ++ words hookNames ++ spaces ++ lit "<"

/-- Takes the type arguments that begin at the matches out of the text from `pos` on; a match inside arguments
already taken out is skipped. -/
def dropTypeArguments (s : List Char) (pos : Nat) : List Match → List Char
  | [] => s.drop pos
  | m :: ms =>
    if m.start < pos then dropTypeArguments s pos ms
    else match typeArgumentsEnd? s (m.stop - 1) with
      | none => dropTypeArguments s pos ms
      | some stop =>
        if (Text.trimStart (s.drop stop)).head? != some '(' then dropTypeArguments s pos ms
        else
          (Text.trimEnd (s.take (m.stop - 1))).drop pos ++ dropTypeArguments s stop ms

def stripHookGenerics (s : List Char) : List Char := dropTypeArguments s 0 (hookGenerics.findAll s)

/-! ### Blank lines -/

def blankLine : Pattern := blanks ++ opt (lit "\r") ++ lit "\n"

/-- A line break and three or more blank lines. -/
def longBlank : Pattern := lit "\n" ++ blankLine ++ blankLine ++ blankLine ++ .star blankLine true

/-- Shortens runs of three and more blank lines to two and trims the ends. -/
def collapseBlankLines (s : List Char) : List Char :=
  Text.trim (longBlank.replaceAll (fun _ => "\n\n\n".toList) s)

/-! ### The whole -/

/-- The plain program of a typed source. -/
def normalize (s : List Char) : List Char :=
  let s := stripFences s
  let s := stripGenericParameters
    (stripComponentTypes (stripExports (removeTypeAliases (removeInterfaces (removeImports s)))))
  let s := stripParameterLists (outsideLiterals stripReturnTypes s)
  let s := outsideLiterals stripVariableTypes (outsideLiterals stripTypeAssertions s)
  collapseBlankLines (stripHookGenerics s)

end LivePreview.Source
