import RefLifetime.Proofs.Run

/-!
# Where statements start

`Stmt.places` lists the locals and expressions that stand anywhere in a statement. Increments of a
`for` loop, and the handlers and the last part of a `try` statement, are late places. A statement
starts at its first place that is not late (`Stmt.span?_eq`), so one that has late places only has
no span, although something in it has one (`Stmt.span?_finds_early_places`).
-/

namespace RefLifetime

/-- A local or an expression. What is inside an expression belongs to it. -/
inductive Item where
  | var (var : Local)
  | expr (e : Expr)

/-- Where a local or an expression stands in the source. -/
def Item.span : Item → Span
  | var x => x.span
  | expr e => e.span

/-- An item of a statement. -/
structure Place where
  item : Item
  /-- The item stands in an increment, in a handler or in the last part of a `try` statement. -/
  late : Bool := false

namespace Place

/-- Where a place is in the source. -/
def span (p : Place) : Span := p.item.span

/-- The same item in a part that comes late. -/
def delayed (p : Place) : Place := { p with late := true }

/-- The span of the first place that is not late. -/
def first? (places : List Place) : Option Span := (places.find? (!·.late)).map span

@[simp] private theorem first?_nil : first? [] = none := rfl

@[simp] private theorem first?_early (item : Item) (rest : List Place) :
    first? (⟨item, false⟩ :: rest) = some item.span := rfl

@[simp] private theorem first?_append (places more : List Place) :
    first? (places ++ more) = (first? places).or (first? more) := by
  simp only [first?, List.find?_append, Option.map_or]

@[simp] private theorem first?_delayed (places : List Place) :
    first? (places.map delayed) = none := by
  simp [first?, delayed]

private theorem first?_eq_none_iff (places : List Place) :
    first? places = none ↔ ∀ p ∈ places, p.late = true := by
  simp [first?]

private theorem exists_of_first? {places : List Place} {span : Span}
    (h : first? places = some span) : ∃ p ∈ places, p.late = false ∧ p.span = span := by
  obtain ⟨p, hfind, hspan⟩ := Option.map_eq_some_iff.mp h
  have hearly := List.find?_some hfind
  exact ⟨p, List.mem_of_find?_eq_some hfind, by simpa using hearly, hspan⟩

end Place

/-! ### The places of a statement -/

/-- An expression is one place, whatever is inside it. -/
def Expr.places (e : Expr) : List Place := [⟨.expr e, false⟩]

/-- The place of an expression that may be absent. -/
def Expr.optionPlaces (e : Option Expr) : List Place := e.toList.flatMap Expr.places

/-- The places of a declaration. -/
def Declaration.places (d : Declaration) : List Place :=
  ⟨.var d.var, false⟩ :: Expr.optionPlaces d.init

mutual

/-- The values that a pattern compares with and the variables that it names. -/
def Pattern.places : Pattern → List Place
  | .discard | .type _ | .slice none => []
  | .constant e | .relational e => e.places
  | .declaration var => var.toList.map (⟨.var ·, false⟩)
  | .recursive properties var =>
    Property.listPlaces properties ++ var.toList.map (⟨.var ·, false⟩)
  | .list elements var => Pattern.listPlaces elements ++ var.toList.map (⟨.var ·, false⟩)
  | .slice (some p) | .not p => p.places
  | .and left right | .or left right => left.places ++ right.places
termination_by structural p => p

/-- The places in all patterns of a list. -/
def Pattern.listPlaces : List Pattern → List Place
  | [] => []
  | p :: rest => p.places ++ Pattern.listPlaces rest
termination_by structural ps => ps

/-- The places in the patterns for some fields. -/
def Property.listPlaces : List Property → List Place
  | [] => []
  | ⟨_, p⟩ :: rest => p.places ++ Property.listPlaces rest
termination_by structural ps => ps

end

mutual

/-- The locals and expressions that stand in a statement, at any depth. The condition of a loop
comes before its body. -/
def Stmt.places : Stmt → List Place
  | .block body | .uncheckedBlock body => Stmt.listPlaces body
  | .declare d => d.places
  | .eval e | .yieldReturn e => e.places
  | .ret e | .throw e => Expr.optionPlaces e
  | .ite condition whenTrue whenFalse =>
    condition.places ++ (whenTrue.places ++ Stmt.optionPlaces whenFalse)
  | .whileLoop condition body | .doLoop condition body => condition.places ++ body.places
  | .forLoop inits condition increments body =>
    Stmt.listPlaces inits ++ (Expr.optionPlaces condition ++
      ((increments.flatMap Expr.places).map Place.delayed ++ body.places))
  | .foreach var collection body =>
    ⟨.var var, false⟩ :: (collection.places ++ body.places)
  | .using resources body => resources.flatMap Declaration.places ++ body.places
  | .switch governing sections => governing.places ++ Section.listPlaces sections
  | .tryCatch body catches cleanup =>
    Stmt.listPlaces body ++
      (Catch.listPlaces catches ++ Stmt.cleanupPlaces cleanup).map Place.delayed
  | .break | .continue | .empty => []
termination_by structural s => s

/-- The places in a statement that may be absent. -/
def Stmt.optionPlaces : Option Stmt → List Place
  | none => []
  | some s => s.places
termination_by structural s => s

/-- The places of a block, one statement after another. -/
def Stmt.listPlaces : List Stmt → List Place
  | [] => []
  | s :: rest => s.places ++ Stmt.listPlaces rest
termination_by structural body => body

/-- The places in the last part of a try statement, which may be absent. -/
def Stmt.cleanupPlaces : Option (List Stmt) → List Place
  | none => []
  | some body => Stmt.listPlaces body
termination_by structural body => body

/-- The places in the sections of a switch statement: labels, guard and body of each. -/
def Section.listPlaces : List Section → List Place
  | [] => []
  | ⟨labels, guard, body⟩ :: rest =>
    Pattern.listPlaces labels ++ (Expr.optionPlaces guard ++ Stmt.listPlaces body) ++
      Section.listPlaces rest
termination_by structural sections => sections

/-- The places in the handlers of a try statement: variable, filter and body of each. -/
def Catch.listPlaces : List Catch → List Place
  | [] => []
  | ⟨var, filter, body⟩ :: rest =>
    var.toList.map (⟨.var ·, false⟩) ++ (Expr.optionPlaces filter ++ Stmt.listPlaces body) ++
      Catch.listPlaces rest
termination_by structural catches => catches

end

/-! ### The first early place -/

@[simp] private theorem Expr.first?_places (e : Expr) : Place.first? e.places = some e.span := rfl

@[simp] private theorem Expr.first?_optionPlaces (e : Option Expr) :
    Place.first? (Expr.optionPlaces e) = e.map (·.span) := by
  cases e <;> rfl

@[simp] private theorem Declaration.first?_places (d : Declaration) :
    Place.first? d.places = some d.var.span := rfl

mutual

/-- A statement starts at its first place that is not late. -/
theorem Stmt.span?_eq : (s : Stmt) → s.span? = Place.first? s.places
  | .block body | .uncheckedBlock body => Stmt.blockSpan?_eq body
  | .declare _ | .eval _ | .yieldReturn _ | .foreach _ _ _ => rfl
  | .ret e | .throw e => (Expr.first?_optionPlaces e).symm
  | .ite _ _ _ | .whileLoop _ _ | .doLoop _ _ | .switch _ _ => rfl
  | .forLoop inits condition _ body => by
    simp [Stmt.span?, Stmt.places, Stmt.blockSpan?_eq inits, body.span?_eq]
  | .using [] body => body.span?_eq
  | .using (_ :: _) _ => by simp [Stmt.span?, Stmt.places]
  | .tryCatch body _ _ => by simp [Stmt.span?, Stmt.places, Stmt.blockSpan?_eq body]
  | .break | .continue | .empty => rfl
termination_by structural s => s

private theorem Stmt.blockSpan?_eq :
    (body : List Stmt) → Stmt.blockSpan? body = Place.first? (Stmt.listPlaces body)
  | [] => rfl
  | s :: rest => by simp [Stmt.blockSpan?, Stmt.listPlaces, s.span?_eq, Stmt.blockSpan?_eq rest]
termination_by structural body => body

end

/-- A statement that may not be entered fails where it starts, or at the method if it starts
nowhere. -/
theorem Walker.visit_stmt_zero (w : Walker) (mood : Mood) (path : Path) (s : Stmt)
    (demand : Demand) (state : State) :
    w.visit 0 mood path (.stmt s) demand state =
      .error (.depthExceeded w.limit ((Place.first? s.places).getD w.setting.method.span))
        state := by
  rw [visit_stmt, compute_zero, Node.span, s.span?_eq]

/-- The span of a statement is missing exactly if all locals and expressions in it, if any, stand in
increments of `for` loops, in handlers and in last parts of `try` statements. Otherwise it is that
of some local or expression that stands elsewhere in it. The same holds of a block, and a statement
that is nested too deeply is reported at that span, or at the method if the span is missing. -/
theorem Stmt.span?_finds_early_places (s : Stmt) (body : List Stmt) :
    (s.span? = none ↔ ∀ p ∈ s.places, p.late = true) ∧
    (∀ span, s.span? = some span → ∃ p ∈ s.places, p.late = false ∧ p.span = span) ∧
    (Stmt.blockSpan? body = none ↔ ∀ p ∈ Stmt.listPlaces body, p.late = true) ∧
    (∀ span, Stmt.blockSpan? body = some span →
      ∃ p ∈ Stmt.listPlaces body, p.late = false ∧ p.span = span) ∧
    ∀ (w : Walker) (mood : Mood) (path : Path) (demand : Demand) (state : State),
      ((∀ p ∈ s.places, p.late = true) ∧ w.visit 0 mood path (.stmt s) demand state =
        .error (.depthExceeded w.limit w.setting.method.span) state) ∨
      ∃ p ∈ s.places, p.late = false ∧ w.visit 0 mood path (.stmt s) demand state =
        .error (.depthExceeded w.limit p.span) state := by
  rw [s.span?_eq, Stmt.blockSpan?_eq body]
  refine ⟨Place.first?_eq_none_iff _, fun _ => Place.exists_of_first?,
    Place.first?_eq_none_iff _, fun _ => Place.exists_of_first?, ?_⟩
  intro w mood path demand state
  rw [w.visit_stmt_zero]
  cases h : Place.first? s.places with
  | none => exact .inl ⟨(Place.first?_eq_none_iff _).mp h, rfl⟩
  | some span =>
    obtain ⟨p, hp, hearly, rfl⟩ := Place.exists_of_first? h
    exact .inr ⟨p, hp, hearly, rfl⟩

/-- A block starts at its first statement that has a place, here inside a loop. -/
theorem Stmt.span?_finds_early_places_condition :
    let condition : Expr := ⟨.literal, .bool, .onLine 3 20 21⟩
    let s : Stmt :=
      .block [.empty, .block [.break], .whileLoop condition (.tryCatch [] [⟨none, none, []⟩] none)]
    s.span? = some (.onLine 3 20 21) ∧
      ∃ p ∈ s.places, p.late = false ∧ p.span = .onLine 3 20 21 := by
  intro condition s
  exact ⟨rfl, (Stmt.span?_finds_early_places s []).2.1 _ rfl⟩

/-- A loop of which only the increment is written and a handler of which only the variable is have
something located in them and no span. Nested too deeply, they are reported at the method. -/
theorem Stmt.span?_misses_late_places :
    let f : Method := { name := "f", returnTy := .void, span := .onLine 1 0 1 }
    let increment : Expr := ⟨.literal, .int, .onLine 3 8 9⟩
    let caught : Local := { id := 0, name := "e", ty := .object, span := .onLine 4 8 9 }
    let loop : Stmt := .forLoop [] none [increment] .empty
    let attempt : Stmt := .tryCatch [] [⟨some caught, none, []⟩] none
    (∃ p ∈ loop.places, p.span = .onLine 3 8 9) ∧ loop.span? = none ∧
      (∃ p ∈ attempt.places, p.span = .onLine 4 8 9) ∧ attempt.span? = none ∧
      Stmt.blockSpan? [loop, attempt] = none ∧
      (analyze ⟨f, [loop]⟩ ⟨.updated, 0⟩).result = .error (.depthExceeded 0 (.onLine 1 0 1)) := by
  intro f increment caught loop attempt
  refine ⟨⟨⟨.expr increment, true⟩, ?_, rfl⟩, rfl, ⟨⟨.var caught, true⟩, ?_, rfl⟩, rfl, rfl, rfl⟩
  · exact List.mem_cons_self
  · exact List.mem_cons_self

end RefLifetime
