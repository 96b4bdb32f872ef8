import RefLifetime.Diagnostic.Code
import RefLifetime.Text.Replace

/-!
# Message templates

A template is text with numbered holes. Arguments are filled in one after another, each into the
whole text so far, so text that an argument brings in and that reads as a later hole is filled too.
Holes beyond the arguments stay as they are.
-/

namespace RefLifetime

/-- A part of a message template. -/
inductive Piece where
  | text (content : String)
  /-- The place of the argument of that number. -/
  | hole (index : Nat)
  deriving DecidableEq, Repr

/-- A hole as it is written in a template. -/
def Piece.holeText (index : Nat) : String := "\x7b" ++ index.repr ++ "\x7d"

/-- A part of a template in writing. -/
def Piece.render : Piece → String
  | .text s => s
  | .hole index => holeText index

/-- The wording of a message, with holes for its arguments. -/
abbrev Template := List Piece

namespace Template

/-- A template in writing. -/
def render (template : Template) : String := String.join (template.map Piece.render)

/-- The numbers of the holes, in the order they stand. -/
def holes (template : Template) : List Nat :=
  template.filterMap fun
    | .text _ => none
    | .hole index => some index

/-- Fills `args` into the holes numbered from `index` on. -/
def fillFrom (index : Nat) (text : String) : List String → String
  | [] => text
  | arg :: rest => fillFrom (index + 1) (Text.replaceAll (Piece.holeText index) arg text) rest

/-- The message that a template makes of its arguments. -/
def fill (template : Template) (args : List String) : String := fillFrom 0 template.render args

end Template

/-- The wording of a violation, the same for errors and warnings. -/
def Violation.template : Violation → Template
  | refReturnLocal =>
    [.text "Cannot return local '", .hole 0, .text "' (declared on line ", .hole 1,
      .text ") by reference because it is not a ref local"]
  | refReturnNonreturnableLocal =>
    [.text "Cannot return '", .hole 0, .text "' by reference because it is a '", .hole 1,
      .text "' variable"]
  | escapeVariable =>
    [.text "Cannot use variable '", .hole 0,
      .text "' in this context because it may expose referenced variables outside ",
      .text "of their declaration scope"]
  | refReturnParameter =>
    [.text "Cannot return a parameter by reference '", .hole 0,
      .text "' because it is not a ref parameter"]
  | refReturnScopedParameter =>
    [.text "Cannot return a parameter by reference '", .hole 0,
      .text "' because it is scoped to the current method"]
  | refReturnOnlyParameter =>
    [.text "Cannot return a parameter by reference '", .hole 0,
      .text "' through a ref parameter; it can only be returned in a return ", .text "statement"]
  | refReturnParameterMember =>
    [.text "Cannot return by reference a member of parameter '", .hole 0,
      .text "' because it is not a ref or out parameter"]
  | refReturnScopedParameterMember =>
    [.text "Cannot return by reference a member of parameter '", .hole 0,
      .text "' because it is scoped to the current method"]
  | refReturnOnlyParameterMember =>
    [.text "Cannot return by reference a member of parameter '", .hole 0,
      .text "' through a ref parameter; it can only be returned in a return ", .text "statement"]
  | refReturnStructThis =>
    [.text "Cannot return 'this' or its members by reference because 'this' is ",
      .text "scoped to the current method"]
  | escapeStackAlloc =>
    [.text "A result of a stackalloc expression of type '", .hole 0,
      .text "' cannot be used in this context because it may be exposed outside of ",
      .text "the containing method"]
  | collectionExpressionEscape =>
    [.text "A collection expression of type '", .hole 0,
      .text "' cannot be used in this context because it may be exposed outside of ",
      .text "the containing method"]
  | escapeCall =>
    [.text "Cannot use a result of '", .hole 0,
      .text "' in this context because it may expose variables referenced by ",
      .text "parameter '", .hole 1, .text "' outside of their declaration scope"]
  | escapeCallMember =>
    [.text "Cannot use a member of result of '", .hole 0,
      .text "' in this context because it may expose variables referenced by ",
      .text "parameter '", .hole 1, .text "' outside of their declaration scope"]
  | callArgMixing =>
    [.text "This combination of arguments to '", .hole 0,
      .text "' is disallowed because it may expose variables referenced by ", .text "parameter '",
      .hole 1, .text "' outside of their declaration scope"]
  | nonEscapingArgument =>
    [.text "A reference passed to parameter '", .hole 1, .text "' of '", .hole 0,
      .text "' may escape because the parameter is not marked non-escaping"]
  | refAssignNarrower =>
    [.text "Cannot ref-assign '", .hole 1, .text "' to '", .hole 0, .text "' because '", .hole 1,
      .text "' has a narrower escape scope than '", .hole 0, .text "'"]
  | refAssignReturnOnly =>
    [.text "Cannot ref-assign '", .hole 1, .text "' to '", .hole 0, .text "' because '", .hole 1,
      .text "' can only escape the current method through a return statement"]
  | refAssignValueNarrower =>
    [.text "Cannot ref-assign '", .hole 1, .text "' to '", .hole 0,
      .text "' because the value of '", .hole 1, .text "' has a narrower escape scope than '",
      .hole 0, .text "'"]

/-- The wording of a code. -/
def Code.template : Code → Template
  | violation kind _ => kind.template
  | mayCaptureRefParameter =>
    [.text "The ref struct returned by '", .hole 0, .text "' may capture ref parameter '", .hole 1,
      .text "'; mark the parameter 'scoped' if it is not captured"]

end RefLifetime
