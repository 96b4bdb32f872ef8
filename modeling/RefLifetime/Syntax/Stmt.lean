import RefLifetime.Syntax.Expr

/-!
# Statements and method bodies

A block is its list of statements. `Stmt.span?` says where a statement starts; it is the place
cited when a statement is nested too deeply.
-/

namespace RefLifetime

/-- A local and its initial value. For a `ref` local that is the location referred to. -/
structure Declaration where
  var : Local
  init : Option Expr

mutual

/-- A statement of a method body. -/
inductive Stmt where
  | block (body : List Stmt)
  | declare (declaration : Declaration)
  | eval (value : Expr)
  /-- Returns by reference when the enclosing method does. -/
  | ret (value : Option Expr)
  | yieldReturn (value : Expr)
  | ite (condition : Expr) (whenTrue : Stmt) (whenFalse : Option Stmt)
  | whileLoop (condition : Expr) (body : Stmt)
  | doLoop (condition : Expr) (body : Stmt)
  | forLoop (inits : List Stmt) (condition : Option Expr) (increments : List Expr) (body : Stmt)
  | foreach (var : Local) (collection : Expr) (body : Stmt)
  | using (resources : List Declaration) (body : Stmt)
  | switch (governing : Expr) (sections : List Section)
  | tryCatch (body : List Stmt) (catches : List Catch) (cleanup : Option (List Stmt))
  | throw (value : Option Expr)
  | break
  | continue
  | empty
  /-- A block in which violations are only warned about. -/
  | uncheckedBlock (body : List Stmt)

/-- One section of a switch statement. -/
structure Section where
  labels : List Pattern
  guard : Option Expr
  body : List Stmt

/-- One handler of a try statement. -/
structure Catch where
  var : Option Local
  filter : Option Expr
  body : List Stmt

end

mutual

/-- Where a statement starts, as far as its leading parts say: the place of the first local or
expression found there. -/
def Stmt.span? : Stmt → Option Span
  | .block body | .uncheckedBlock body => blockSpan? body
  | .declare ⟨var, _⟩ => some var.span
  | .eval value | .yieldReturn value => some value.span
  | .ret value | .throw value => value.map (·.span)
  | .ite condition _ _ | .whileLoop condition _ | .doLoop condition _ => some condition.span
  | .forLoop inits condition _ body =>
    (blockSpan? inits).or ((condition.map (·.span)).or body.span?)
  | .foreach var _ _ => some var.span
  | .using (⟨var, _⟩ :: _) _ => some var.span
  | .using [] body => body.span?
  | .switch governing _ => some governing.span
  | .tryCatch body _ _ => blockSpan? body
  | .break | .continue | .empty => none

/-- Where a block starts: at its first statement that has a place. -/
def Stmt.blockSpan? : List Stmt → Option Span
  | [] => none
  | stmt :: rest => stmt.span?.or (blockSpan? rest)

end

/-- A method and what it does. -/
structure Body where
  method : Method
  stmts : List Stmt

end RefLifetime
