import RefLifetime.Syntax.Stmt

/-!
# Equality of trees

Two trees are equal when they have the same shape, the same types and places, and symbols of the
same content.
-/

namespace RefLifetime

mutual

/-- Equality of expressions. -/
def Expr.beq : Expr → Expr → Bool
  | ⟨form, ty, span⟩, ⟨form', ty', span'⟩ => form.beq form' && ty == ty' && span == span'
termination_by structural a => a

/-- Equality of optional expressions. -/
def Expr.optionBeq : Option Expr → Option Expr → Bool
  | none, none => true
  | some e, some e' => e.beq e'
  | _, _ => false
termination_by structural a => a

/-- Equality of lists of expressions. -/
def Expr.listBeq : List Expr → List Expr → Bool
  | [], [] => true
  | e :: rest, e' :: rest' => e.beq e' && Expr.listBeq rest rest'
  | _, _ => false
termination_by structural a => a

/-- Equality of forms. -/
def Form.beq : Form → Form → Bool
  | .literal, .literal => true
  | .defaultValue, .defaultValue => true
  | .typeToken, .typeToken => true
  | .typeSize, .typeSize => true
  | .localVar var, .localVar var' => var == var'
  | .param var, .param var' => var == var'
  | .thisRef, .thisRef => true
  | .field receiver member, .field receiver' member' =>
    Expr.optionBeq receiver receiver' && member == member'
  | .arrayElement array indices, .arrayElement array' indices' =>
    array.beq array' && Expr.listBeq indices indices'
  | .call receiver method args, .call receiver' method' args' =>
    Expr.optionBeq receiver receiver' && method == method' && Argument.listBeq args args'
  | .objectCreation method args inits, .objectCreation method' args' inits' =>
    method == method' && Argument.listBeq args args' && FieldInit.listBeq inits inits'
  | .arrayCreation id sizes elements, .arrayCreation id' sizes' elements' =>
    id == id' && Expr.listBeq sizes sizes' && Expr.listBeq elements elements'
  | .delegateCreation receiver method, .delegateCreation receiver' method' =>
    Expr.optionBeq receiver receiver' && method == method'
  | .stackAlloc count elements, .stackAlloc count' elements' =>
    count.beq count' && Expr.listBeq elements elements'
  | .collection elements, .collection elements' => Expr.listBeq elements elements'
  | .conditional c l r byRef, .conditional c' l' r' byRef' =>
    c.beq c' && l.beq l' && r.beq r' && byRef == byRef'
  | .coalesce l r, .coalesce l' r' => l.beq l' && r.beq r'
  | .tuple elements, .tuple elements' => Expr.listBeq elements elements'
  | .conversion operand kind, .conversion operand' kind' => operand.beq operand' && kind == kind'
  | .unary operand, .unary operand' => operand.beq operand'
  | .binary l r, .binary l' r' => l.beq l' && r.beq r'
  | .assignment l r byRef, .assignment l' r' byRef' => l.beq l' && r.beq r' && byRef == byRef'
  | .compoundAssignment l r, .compoundAssignment l' r' => l.beq l' && r.beq r'
  | .outVar var, .outVar var' => var == var'
  | .discard, .discard => true
  | .isPattern operand p, .isPattern operand' p' => operand.beq operand' && p.beq p'
  | .switch governing arms, .switch governing' arms' =>
    governing.beq governing' && Arm.listBeq arms arms'
  | _, _ => false
termination_by structural a => a

/-- Equality of argument lists. -/
def Argument.listBeq : List Argument → List Argument → Bool
  | [], [] => true
  | ⟨e, passing⟩ :: rest, ⟨e', passing'⟩ :: rest' =>
    e.beq e' && passing == passing' && Argument.listBeq rest rest'
  | _, _ => false
termination_by structural a => a

/-- Equality of lists of field values. -/
def FieldInit.listBeq : List FieldInit → List FieldInit → Bool
  | [], [] => true
  | ⟨member, e⟩ :: rest, ⟨member', e'⟩ :: rest' =>
    member == member' && e.beq e' && FieldInit.listBeq rest rest'
  | _, _ => false
termination_by structural a => a

/-- Equality of lists of switch arms. -/
def Arm.listBeq : List Arm → List Arm → Bool
  | [], [] => true
  | ⟨p, guard, e⟩ :: rest, ⟨p', guard', e'⟩ :: rest' =>
    p.beq p' && Expr.optionBeq guard guard' && e.beq e' && Arm.listBeq rest rest'
  | _, _ => false
termination_by structural a => a

/-- Equality of patterns. -/
def Pattern.beq : Pattern → Pattern → Bool
  | .discard, .discard => true
  | .constant e, .constant e' => e.beq e'
  | .type ty, .type ty' => ty == ty'
  | .relational e, .relational e' => e.beq e'
  | .declaration var, .declaration var' => var == var'
  | .recursive properties var, .recursive properties' var' =>
    Property.listBeq properties properties' && var == var'
  | .list elements var, .list elements' var' => Pattern.listBeq elements elements' && var == var'
  | .slice none, .slice none => true
  | .slice (some p), .slice (some p') => p.beq p'
  | .not p, .not p' => p.beq p'
  | .and l r, .and l' r' => l.beq l' && r.beq r'
  | .or l r, .or l' r' => l.beq l' && r.beq r'
  | _, _ => false
termination_by structural a => a

/-- Equality of lists of patterns. -/
def Pattern.listBeq : List Pattern → List Pattern → Bool
  | [], [] => true
  | p :: rest, p' :: rest' => p.beq p' && Pattern.listBeq rest rest'
  | _, _ => false
termination_by structural a => a

/-- Equality of lists of field patterns. -/
def Property.listBeq : List Property → List Property → Bool
  | [], [] => true
  | ⟨member, p⟩ :: rest, ⟨member', p'⟩ :: rest' =>
    member == member' && p.beq p' && Property.listBeq rest rest'
  | _, _ => false
termination_by structural a => a

end

/-- Equality of declarations. -/
def Declaration.beq (d d' : Declaration) : Bool := d.var == d'.var && Expr.optionBeq d.init d'.init

/-- Equality of lists of declarations. -/
def Declaration.listBeq : List Declaration → List Declaration → Bool
  | [], [] => true
  | d :: rest, d' :: rest' => d.beq d' && Declaration.listBeq rest rest'
  | _, _ => false

mutual

/-- Equality of statements. -/
def Stmt.beq : Stmt → Stmt → Bool
  | .block body, .block body' => Stmt.listBeq body body'
  | .declare d, .declare d' => d.beq d'
  | .eval e, .eval e' => e.beq e'
  | .ret e, .ret e' => Expr.optionBeq e e'
  | .yieldReturn e, .yieldReturn e' => e.beq e'
  | .ite c l none, .ite c' l' none => c.beq c' && l.beq l'
  | .ite c l (some r), .ite c' l' (some r') => c.beq c' && l.beq l' && r.beq r'
  | .whileLoop c body, .whileLoop c' body' => c.beq c' && body.beq body'
  | .doLoop c body, .doLoop c' body' => c.beq c' && body.beq body'
  | .forLoop inits c increments body, .forLoop inits' c' increments' body' =>
    Stmt.listBeq inits inits' && Expr.optionBeq c c' && Expr.listBeq increments increments' &&
      body.beq body'
  | .foreach var e body, .foreach var' e' body' => var == var' && e.beq e' && body.beq body'
  | .using ds body, .using ds' body' => Declaration.listBeq ds ds' && body.beq body'
  | .switch e sections, .switch e' sections' => e.beq e' && Section.listBeq sections sections'
  | .tryCatch body catches none, .tryCatch body' catches' none =>
    Stmt.listBeq body body' && Catch.listBeq catches catches'
  | .tryCatch body catches (some cleanup), .tryCatch body' catches' (some cleanup') =>
    Stmt.listBeq body body' && Catch.listBeq catches catches' && Stmt.listBeq cleanup cleanup'
  | .throw e, .throw e' => Expr.optionBeq e e'
  | .break, .break => true
  | .continue, .continue => true
  | .empty, .empty => true
  | .uncheckedBlock body, .uncheckedBlock body' => Stmt.listBeq body body'
  | _, _ => false
termination_by structural a => a

/-- Equality of blocks. -/
def Stmt.listBeq : List Stmt → List Stmt → Bool
  | [], [] => true
  | s :: rest, s' :: rest' => s.beq s' && Stmt.listBeq rest rest'
  | _, _ => false
termination_by structural a => a

/-- Equality of lists of switch sections. -/
def Section.listBeq : List Section → List Section → Bool
  | [], [] => true
  | ⟨labels, guard, body⟩ :: rest, ⟨labels', guard', body'⟩ :: rest' =>
    Pattern.listBeq labels labels' && Expr.optionBeq guard guard' && Stmt.listBeq body body' &&
      Section.listBeq rest rest'
  | _, _ => false
termination_by structural a => a

/-- Equality of lists of handlers. -/
def Catch.listBeq : List Catch → List Catch → Bool
  | [], [] => true
  | ⟨var, filter, body⟩ :: rest, ⟨var', filter', body'⟩ :: rest' =>
    var == var' && Expr.optionBeq filter filter' && Stmt.listBeq body body' &&
      Catch.listBeq rest rest'
  | _, _ => false
termination_by structural a => a

end

end RefLifetime
