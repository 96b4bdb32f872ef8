import RefLifetime.Proofs.Depths
import RefLifetime.Proofs.Forwarding

/-!
# References that are re-pointed

A reference to a local may be re-pointed to another local only if that is declared in the same
block, not in one nested in it. `Walker.DoesAll` follows statements through blocks that stand one
around another (`DoesAll.enclose`), and `analyze_repointing` puts the two declarations and the
assignment into any such blocks, unsafe ones among them.
-/

namespace RefLifetime

/-! ### Blocks one around another -/

namespace Region

/-- A block whose violations are refused or, in an unsafe block, only warned about. -/
def block : Region → List Stmt → Stmt
  | .checked, body => .block body
  | .unchecked, body => .uncheckedBlock body

/-- Statements inside blocks that stand one around another, the outermost block first. -/
def enclose (regions : List Region) (body : List Stmt) : List Stmt :=
  regions.foldr (fun region inner => [region.block inner]) body

/-- The region inside blocks that stand one around another. -/
def amid (regions : List Region) (outer : Region) : Region :=
  regions.foldl (fun outer inner => inner.within outer) outer

/-- Inside an unsafe block everything is unchecked. -/
theorem amid_eq (regions : List Region) (outer : Region) :
    amid regions outer =
      if outer = .unchecked ∨ .unchecked ∈ regions then .unchecked else .checked := by
  induction regions generalizing outer with
  | nil => cases outer <;> rfl
  | cons region rest ih =>
    change amid rest (region.within outer) = _
    rw [ih]
    cases region <;> cases outer <;> simp [within]

/-- Violations inside an unsafe method or an unsafe block are only warned about. -/
theorem severity_amid (regions : List Region) (isUnsafe : Bool) :
    (amid regions (.ofUnsafe isUnsafe)).severity =
      if isUnsafe = true ∨ .unchecked ∈ regions then .warning else .error := by
  rw [amid_eq]
  cases isUnsafe with
  | false => by_cases h : .unchecked ∈ regions <;> simp [h, ofUnsafe, severity]
  | true => simp [ofUnsafe, severity]

private theorem amid_append (regions more : List Region) (outer : Region) :
    amid (regions ++ more) outer = amid more (amid regions outer) := List.foldl_append

/-- Blocks declare nothing themselves. -/
theorem listSites_enclose (regions : List Region) (body : List Stmt) :
    Stmt.listSites (enclose regions body) = Stmt.listSites body := by
  induction regions with
  | nil => rfl
  | cons region rest ih =>
    change (region.block (enclose rest body)).sites ++ [] = _
    rw [List.append_nil, ← ih]
    cases region <;> rfl

end Region

/-- The demand on the statements of a block. -/
def Demand.ofBlock (block : Scope) : Demand := ⟨block, .value, block⟩

namespace Walker

/-- The statement is walked without failure wherever it stands in the block, and leads from states
that satisfy `P` to states that satisfy `Q`. -/
def Does (w : Walker) (levels : Nat) (region : Region) (block : Scope) (P : State → Prop)
    (st : Stmt) (Q : State → Prop) : Prop :=
  ∀ path s, P s → ∃ t,
    w.visit levels { region := region } path (.stmt st) (.ofBlock block) s = .ok .unused t ∧ Q t

/-- The statements are walked one after another without failure, and lead from states that satisfy
`P` to states that satisfy `Q`. Their region is that of the block they make up and of what is around
it. -/
def DoesAll (w : Walker) (levels : Nat) (region : Region) (block : Scope) (P : State → Prop)
    (body : List Stmt) (Q : State → Prop) : Prop :=
  ∀ own outer : Region, own.within outer = region → ∀ path start s, P s → ∃ results t,
    w.carryOut levels { region := outer } path
      (Plan.forEach (fun i st => Plan.perform [.stmt i] st (.ofBlock block) own) body start) s =
        .ok results t ∧ Q t

variable {w : Walker} {levels : Nat} {region : Region} {scope : Scope} {P Q R : State → Prop}
  {st : Stmt} {body : List Stmt}

namespace DoesAll

private theorem nil : w.DoesAll levels region scope P [] P :=
  fun _ _ _ _ _ s hs => ⟨[], s, rfl, hs⟩

private theorem cons (h : w.Does levels region scope P st Q)
    (hrest : w.DoesAll levels region scope Q body R) :
    w.DoesAll levels region scope P (st :: body) R := by
  intro own outer hregion path start s hs
  obtain ⟨t, hvisit, ht⟩ := h (path ++ [.stmt start]) s hs
  obtain ⟨results, u, hrun, hu⟩ := hrest own outer hregion path (start + 1) t ht
  refine ⟨() :: results, u, ?_, hu⟩
  subst hregion
  have hfirst : w.carryOut levels { region := outer } path
      (Plan.perform [.stmt start] st (.ofBlock scope) own) s = .ok () t := by
    unfold carryOut Plan.perform
    rw [Plan.run_visit]
    exact congrArg (Ending.andThen · _) hvisit
  rw [Plan.forEach, carryOut_bind, hfirst]
  change w.carryOut levels { region := outer } path (_ >>= _) t = _
  rw [carryOut_bind, hrun]
  rfl

/-- The statements as a rule asks for them. -/
theorem stmts (h : w.DoesAll levels region scope P body Q) {own outer : Region}
    (hregion : own.within outer = region) (path : Path) {s : State} (hs : P s) :
    ∃ t, w.carryOut levels { region := outer } path
      (Rule.stmts [] body (.ofBlock scope) own) s = .ok () t ∧ Q t := by
  obtain ⟨results, t, hrun, ht⟩ := h own outer hregion path 0 s hs
  have hplan : Rule.stmts [] body (.ofBlock scope) own = (do
      let _ ← Plan.forEach (fun i st => Plan.perform [.stmt i] st (.ofBlock scope) own) body
      return ()) := rfl
  refine ⟨t, ?_, ht⟩
  rw [hplan, carryOut_bind, hrun]
  rfl

/-- A block is walked by walking what is in it. -/
theorem block {own : Region} (h : w.DoesAll levels (own.within region) scope.enterBlock P body Q) :
    w.Does (levels + 1) region scope P (own.block body) Q := by
  intro path s hs
  obtain ⟨t, hrun, ht⟩ := h.stmts rfl path hs
  refine ⟨t, ?_, ht⟩
  have hrule : Rule.node w.setting (.stmt (own.block body)) (.ofBlock scope) = (do
      Rule.stmts [] body (.ofBlock scope.enterBlock) own
      return .unused) := by
    cases own <;> rfl
  rw [visit_stmt, compute_succ, hrule]
  change w.carryOut levels _ path (_ >>= _) s = _
  rw [carryOut_bind, hrun]
  rfl

/-- What is in blocks that stand one around another is walked on as many levels further down. -/
theorem enclose (regions : List Region) {k : Nat}
    (h : w.DoesAll levels (Region.amid regions region) (Scope.nested (k + regions.length)) P body
      Q) :
    w.DoesAll (levels + regions.length) region (Scope.nested k) P (Region.enclose regions body)
      Q := by
  induction regions generalizing k region with
  | nil => exact h
  | cons own rest ih =>
    have hinner : w.DoesAll (levels + rest.length) (own.within region) (Scope.nested (k + 1)) P
        (Region.enclose rest body) Q := by
      apply ih
      rwa [Nat.add_assoc, Nat.add_comm 1]
    exact cons (block hinner) nil

/-- The walk of a method body. -/
theorem walkBody (h : w.DoesAll w.limit (.ofUnsafe w.setting.method.isUnsafe) .currentMethod P body
    Q) {s : State} (hs : P s) : ∃ t, w.walkBody body s = .ok () t ∧ Q t :=
  h.stmts (Region.checked_within _) [] hs

end DoesAll

end Walker

/-! ### Locals and what they refer to -/

namespace Scope

/-- A block is not narrower than the blocks inside it. -/
theorem nested_narrowerThan_add (k n : Nat) : (nested k).narrowerThan (nested (k + n)) = false := by
  exact decide_eq_false (Nat.not_lt.mpr (nested_le_add k n))

/-- A nested block is narrower than the one around it, as far down as depths go. -/
theorem nested_add_narrowerThan {k n : Nat} (h : k + n < UInt32.size - 4) :
    (nested (k + n)).narrowerThan (nested k) = decide (0 < n) := by
  rw [narrowerThan, decide_eq_decide, nested_lt_nested_iff]
  omega

end Scope

/-- A block is not return-only. -/
theorem Violation.ofRefAssign_nested (k : Nat) :
    Violation.ofRefAssign (Scope.nested k) = .refAssignNarrower := by
  cases k with
  | zero => rfl
  | succ k =>
    obtain ⟨level, hlevel, -⟩ := Scope.nested_succ k
    rw [hlevel]
    rfl

/-- Whatever the modifier is, a location in the block stays there. -/
theorem Rule.exists_pinned (modifier : Modifier) (block value : Scope) :
    ∃ held, Rule.pinned modifier block ⟨block, value⟩ = ⟨block, held⟩ := by
  cases modifier with
  | unscoped | scopedRef | scopedValue => exact ⟨_, rfl⟩

/-- The diagnostics so far are `ds`, and the locals have locations of these scopes. -/
structure State.Stage (ds : List Diagnostic) (located : List (Local × Scope)) (s : State) :
    Prop where
  diagnostics : s.journal.diagnostics.toList = ds
  located : ∀ entry ∈ located, ∃ value,
    s.lifetimes.get? entry.1.id = some ⟨entry.2, value⟩

variable {w : Walker} {levels : Nat} {region : Region} {mood : Mood} {recorded : Lifetimes}
  {ds : List Diagnostic} {located : List (Local × Scope)} {scope : Scope}

/-- A declaration that records a location in the block adds to what is known. -/
theorem State.Stage.declare {s t : State} (h : s.Stage ds located) {x : Local}
    (hnew : ∀ entry ∈ located, entry.1.id ≠ x.id) (value : Scope)
    (hl : t.lifetimes = s.lifetimes.insert x.id (Rule.pinned x.modifier scope ⟨scope, value⟩))
    (hd : t.journal.diagnostics.toList = s.journal.diagnostics.toList) :
    t.Stage ds ((x, scope) :: located) where
  diagnostics := hd.trans h.diagnostics
  located := by
    obtain ⟨held, hpinned⟩ := Rule.exists_pinned x.modifier scope value
    rw [hl, hpinned, List.forall_mem_cons]
    constructor
    · exact ⟨held, by rw [Lifetimes.get?_insert, if_pos rfl]⟩
    · intro entry hentry
      rw [Lifetimes.get?_insert, if_neg (hnew entry hentry)]
      exact h.located entry hentry

namespace Walker

private theorem localVar_reads_location {x : Local} {location value target : Scope}
    (hx : recorded.get? x.id = some ⟨location, value⟩) (h : location.narrowerThan target = false)
    (ty : Ty) (span : Span) :
    w.Reads (levels + 1) mood recorded ⟨.localVar x, ty, span⟩ ⟨scope, .ref, target⟩
      location [] := by
  refine .of_rule fun path => ⟨∅, .lookup ?_⟩
  rw [hx]
  exact .settle_of_convertible h _

private theorem localVar_reads_quietly {x : Local} {location value target : Scope}
    (hx : recorded.get? x.id = some ⟨location, value⟩) (ty : Ty) (span : Span) :
    w.Reads (levels + 1) mood.hushed recorded ⟨.localVar x, ty, span⟩ ⟨scope, .value, target⟩ value
      [] := by
  refine .of_rule fun path => ⟨∅, .lookup ?_⟩
  rw [hx]
  exact .settle_of_quiet rfl _ _ _

/-- A local with a location of its own is declared. -/
theorem does_declare (hw : w.memoizes = false) {x : Local} (hx : x.passing = .byValue)
    {init : Option Expr} (hinit : ∀ e ∈ init, e.form = .literal)
    (hnew : ∀ entry ∈ located, entry.1.id ≠ x.id) :
    w.Does (levels + 2) region scope (State.Stage ds located) (.declare ⟨x, init⟩)
      (State.Stage ds ((x, scope) :: located)) := by
  intro path s hs
  have hunaware : w.Unaware path s := by simp [Unaware, hw]
  obtain ⟨t, ht, hl, hd⟩ := declare_plain hx hinit { region := region } (.ofBlock scope) hunaware
  exact ⟨t, ht, hs.declare hnew .callingMethod hl hd⟩

/-- A reference is recorded with the scopes of the location and the value that it refers to, as far
as its modifier leaves them. -/
theorem declaration_of_ref {path : Path} {s t u : State} {demand : Demand} {e : Expr} {r : Local}
    (hr : r.passing.isByRef = true) {location value : Scope}
    (hlocation : w.visit levels mood (path ++ [Step.init 0]) (.expr e) demand.forRef s =
      .ok location t)
    (hvalue : w.visit levels mood.hushed (path ++ [Step.init 0]) (.expr e) demand.forValue t =
      .ok value u) :
    w.visit (levels + 1) mood path (.stmt (.declare ⟨r, some e⟩)) demand s =
      .ok .unused (u.declare r (Rule.pinned r.modifier demand.block ⟨location, value⟩)) := by
  have hrule : Rule.node w.setting (.stmt (.declare ⟨r, some e⟩)) demand = (do
      let location ← Plan.evaluate [.init 0] e demand.forRef
      let value ← Plan.evaluateQuietly [.init 0] e demand.forValue
      Plan.declaring r (Rule.pinned r.modifier demand.block ⟨location, value⟩)
      return .unused) := by
    simp only [Rule.node, Rule.stmt, Rule.declaration, hr]
    rfl
  rw [visit_stmt, compute_succ, hrule]
  apply (w.carryOut_evaluate levels mood path [.init 0] e demand.forRef _ s).trans
  rw [hlocation]
  apply (w.carryOut_evaluateQuietly levels mood path [.init 0] e demand.forValue _ t).trans
  rw [hvalue]
  rfl

/-- A reference is declared that refers to a local of the same block. -/
theorem does_declare_ref (hw : w.memoizes = false) {x r : Local} (hr : r.passing.isByRef = true)
    (hx : (x, scope) ∈ located) (hnew : ∀ entry ∈ located, entry.1.id ≠ r.id) (ty : Ty)
    (span : Span) :
    w.Does (levels + 2) region scope (State.Stage ds located)
      (.declare ⟨r, some ⟨.localVar x, ty, span⟩⟩) (State.Stage ds ((r, scope) :: located)) := by
  intro path s hs
  have hunaware (s : State) : w.Unaware (path ++ [.init 0]) s := by simp [Unaware, hw]
  obtain ⟨value, hrecord⟩ := hs.located _ hx
  have hlocation : w.Reads (levels + 1) { region := region } s.lifetimes ⟨.localVar x, ty, span⟩
      (Demand.ofBlock scope).forRef scope [] :=
    localVar_reads_location hrecord (Scope.narrowerThan_self scope) ty span
  have hvalue : w.Reads (levels + 1) (Mood.hushed { region := region }) s.lifetimes
      ⟨.localVar x, ty, span⟩ (Demand.ofBlock scope).forValue value [] :=
    localVar_reads_quietly hrecord ty span
  obtain ⟨t, ht, hst⟩ := hlocation _ s (hunaware s) rfl
  obtain ⟨u, hu, htu⟩ := hvalue _ t (hunaware t) hst.lifetimes
  have hsu := hst.trans htu
  refine ⟨_, declaration_of_ref hr ht hu, hs.declare hnew value ?_ ?_⟩
  · rw [← hsu.lifetimes]
    rfl
  · exact (congrArg Prod.fst (u.findings_declare r _)).trans
      (hsu.diagnostics.trans (List.append_nil _))

/-- A reference that is re-pointed to a narrower location is reported, and nothing else is. -/
theorem repointing_reads (hw : w.memoizes = false) (hq : mood.quiet = false) {r y : Local}
    {held location rvalue value : Scope} (hr : recorded.get? r.id = some ⟨held, rvalue⟩)
    (hy : recorded.get? y.id = some ⟨location, value⟩) (hheld : held.narrowerThan scope = false)
    (hlocation : location.narrowerThan scope = false) {rty : Ty} (hty : rty.isRefLike = false)
    (yty ty : Ty) (left right span : Span) :
    w.Reads (levels + 2) mood recorded
      ⟨.assignment ⟨.localVar r, rty, left⟩ ⟨.localVar y, yty, right⟩ true, ty, span⟩
      (.ofBlock scope) value
      (if location.narrowerThan held then
        [Finding.inRegion ⟨.ofRefAssign location, right, [r.name, y.name]⟩ mood.region] else
        []) := by
  have hrule : Rule.expr w.setting
      ⟨.assignment ⟨.localVar r, rty, left⟩ ⟨.localVar y, yty, right⟩ true, ty, span⟩
      (.ofBlock scope) =
      Rule.refAssignment ⟨.localVar r, rty, left⟩ ⟨.localVar y, yty, right⟩ (.ofBlock scope) := rfl
  have hchecks : Rule.repointing ⟨.localVar r, rty, left⟩ ⟨.localVar y, yty, right⟩
      (.ofBlock scope) held location = Plan.reportIf (location.narrowerThan held)
        ⟨.ofRefAssign location, right, [r.name, y.name]⟩ := by
    unfold Rule.repointing
    rw [hty]
    rfl
  have hempty (B : Set Step) : ∀ step ∈ (∅ : Set Step), step ∉ B := by simp
  refine .of_rule fun path => ?_
  have hleft : w.Yields (levels + 1) mood path recorded {.left}
      (Plan.evaluate [.left] ⟨.localVar r, rty, left⟩ (Demand.ofBlock scope).forRef) held [] :=
    .evaluate (localVar_reads_location hr hheld rty left) .left []
  have hright : w.Yields (levels + 1) mood path recorded ∅
      (Plan.evaluate [.right] ⟨.localVar y, yty, right⟩ (Demand.ofBlock scope).forRef) location
      [] :=
    -- The right side is read again for its value, which is no matter as nothing is remembered.
    .of_forgetful hw (.evaluate (localVar_reads_location hy hlocation yty right) .right [])
  have hlast : w.Yields (levels + 1) mood path recorded {.right}
      (Rule.repointed ⟨.localVar y, yty, right⟩ (.ofBlock scope) location) value [] :=
    .evaluateQuietly (localVar_reads_quietly hy yty right) .right []
  have hends := (Yields.reportIf hq (location.narrowerThan held)
    ⟨.ofRefAssign location, right, [r.name, y.name]⟩).bind
      (f := fun _ => Rule.repointed ⟨.localVar y, yty, right⟩ (.ofBlock scope) location) hlast
      (hempty _)
  rw [List.append_nil, ← hchecks] at hends
  rw [hrule, Rule.refAssignment_eq]
  exact ⟨_, hleft.skip (hright.skip hends (hempty _)) (by simp)⟩

/-- An expression that is evaluated as a statement reports what is read off it. -/
theorem Reads.evaluated {e : Expr} {demand : Demand} {value : Scope}
    (h : w.Reads levels mood recorded e demand.forValue value ds) {path : Path} {s : State}
    (hs : w.Unaware (path ++ [.operand]) s) (hl : s.lifetimes = recorded) :
    ∃ t, w.visit (levels + 1) mood path (.stmt (.eval e)) demand s = .ok .unused t ∧
      s.Adds ds t := by
  have hrule : Rule.node w.setting (.stmt (.eval e)) demand = (do
      let _ ← Plan.evaluate [.operand] e demand.forValue
      return .unused) := rfl
  obtain ⟨t, ht, hst⟩ := h _ s hs hl
  refine ⟨t, ?_, hst⟩
  rw [visit_stmt, compute_succ, hrule]
  apply (w.carryOut_evaluate levels mood path [.operand] e demand.forValue _ s).trans
  rw [ht]
  rfl

/-- The assignment as a statement. -/
theorem does_repoint (hw : w.memoizes = false) {r y : Local} {held : Scope}
    (hr : (r, held) ∈ located) (hy : (y, scope) ∈ located)
    (hheld : held.narrowerThan scope = false) (hty : r.ty.isRefLike = false)
    (left right span : Span) :
    w.Does (levels + 3) region scope (State.Stage ds located)
      (.eval ⟨.assignment ⟨.localVar r, r.ty, left⟩ ⟨.localVar y, y.ty, right⟩ true, r.ty, span⟩)
      (State.Stage (ds ++ if scope.narrowerThan held then
        [Finding.inRegion ⟨.ofRefAssign scope, right, [r.name, y.name]⟩ region] else [])
        located) := by
  intro path s hs
  obtain ⟨rvalue, hrecord⟩ := hs.located _ hr
  obtain ⟨value, hrecord'⟩ := hs.located _ hy
  have hunaware : w.Unaware (path ++ [.operand]) s := by simp [Unaware, hw]
  have hreads : w.Reads (levels + 2) { region := region } s.lifetimes
      ⟨.assignment ⟨.localVar r, r.ty, left⟩ ⟨.localVar y, y.ty, right⟩ true, r.ty, span⟩
      (Demand.ofBlock scope).forValue value _ :=
    repointing_reads hw rfl hrecord hrecord' hheld (Scope.narrowerThan_self scope) hty y.ty r.ty
      left right span
  obtain ⟨t, ht, hst⟩ := hreads.evaluated hunaware rfl
  refine ⟨t, ht, ?_, ?_⟩
  · rw [hst.diagnostics, hs.diagnostics]
  · rw [hst.lifetimes]
    exact hs.located

end Walker

/-! ### The program -/

/-- Two locals, and a reference to the one that is then re-pointed to the other. -/
structure Repointing where
  x : Local
  r : Local
  y : Local
  /-- The literals that the locals may be declared with. -/
  xInit : Option Expr
  yInit : Option Expr
  /-- Where `x` is referred to. -/
  referent : Span
  /-- Where the assignment and its sides stand. -/
  assignment : Span
  left : Span
  right : Span
  x_passing : x.passing = .byValue
  y_passing : y.passing = .byValue
  r_passing : r.passing.isByRef = true
  r_plain : r.ty.isRefLike = false
  xInit_literal : ∀ e ∈ xInit, e.form = .literal
  yInit_literal : ∀ e ∈ yInit, e.form = .literal
  distinct : [x.id, r.id, y.id].Nodup

namespace Repointing

variable (p : Repointing)

private theorem ids_ne : p.x.id ≠ p.r.id ∧ p.x.id ≠ p.y.id ∧ p.r.id ≠ p.y.id := by
  simpa [and_assoc] using p.distinct

/-- `y` is declared and the reference is pointed to it. -/
def innermost : List Stmt :=
  [.declare ⟨p.y, p.yInit⟩,
    .eval ⟨.assignment ⟨.localVar p.r, p.r.ty, p.left⟩ ⟨.localVar p.y, p.y.ty, p.right⟩ true,
      p.r.ty, p.assignment⟩]

/-- Inside the outer blocks, `x` and a reference to it are declared; inside further blocks, the
reference is re-pointed. -/
def program (outer inner : List Region) : List Stmt :=
  Region.enclose outer
    (.declare ⟨p.x, p.xInit⟩ :: .declare ⟨p.r, some ⟨.localVar p.x, p.x.ty, p.referent⟩⟩ ::
      Region.enclose inner p.innermost)

private theorem sites_program (outer inner : List Region) :
    Stmt.listSites (p.program outer inner) = [p.x.id, p.r.id, p.y.id] := by
  have hliteral {init : Option Expr} (h : ∀ e ∈ init, e.form = .literal) :
      Expr.optionSites init = [] := by
    cases init with
    | none => rfl
    | some e =>
      obtain ⟨form, ty, span⟩ := e
      cases h _ rfl
      rfl
  rw [program, Region.listSites_enclose]
  simp [Stmt.listSites, Stmt.sites, Declaration.sites, Region.listSites_enclose, innermost,
    hliteral p.xInit_literal, hliteral p.yInit_literal, Expr.optionSites, Expr.sites, Form.sites]

/-- What is reported if the assignment stands in `n` further blocks. -/
def reports (region : Region) (n : Nat) : List Diagnostic :=
  if n = 0 then [] else
    [⟨.violation .refAssignNarrower region.severity, p.right, [p.r.name, p.y.name]⟩]

variable {w : Walker} {levels : Nat} {region : Region} {k : Nat} {ds : List Diagnostic}

/-- The second local is declared, and the reference is pointed to it. -/
theorem does_innermost (hw : w.memoizes = false) {n : Nat} (hn : k + n < UInt32.size - 4) :
    w.DoesAll (levels + 3) region (Scope.nested (k + n))
      (State.Stage ds [(p.r, Scope.nested k), (p.x, Scope.nested k)]) p.innermost
      (State.Stage (ds ++ p.reports region n)
        [(p.y, Scope.nested (k + n)), (p.r, Scope.nested k), (p.x, Scope.nested k)]) := by
  have hnew : ∀ entry ∈ [(p.r, Scope.nested k), (p.x, Scope.nested k)], entry.1.id ≠ p.y.id := by
    simp [p.ids_ne]
  have hwide : (Scope.nested k).narrowerThan (Scope.nested (k + n)) = false :=
    Scope.nested_narrowerThan_add k n
  have hreports : p.reports region n =
      if (Scope.nested (k + n)).narrowerThan (Scope.nested k) then
        [Finding.inRegion ⟨.ofRefAssign (Scope.nested (k + n)), p.right, [p.r.name, p.y.name]⟩
          region] else [] := by
    rw [Scope.nested_add_narrowerThan hn, Violation.ofRefAssign_nested]
    cases n with
    | zero => rfl
    | succ n => simp [reports, Finding.inRegion, Code.ofViolation]
  rw [hreports]
  refine .cons (Walker.does_declare hw p.y_passing p.yInit_literal hnew) (.cons ?_ .nil)
  exact Walker.does_repoint hw (by simp) (by simp) hwide p.r_plain p.left p.right p.assignment

/-- The whole program. -/
theorem does_program (hw : w.memoizes = false) {outer inner : List Region}
    (hdepth : outer.length + inner.length < UInt32.size - 4)
    (hlevels : outer.length + inner.length + 3 ≤ levels) :
    w.DoesAll levels region .currentMethod (State.Stage ds []) (p.program outer inner)
      (State.Stage (ds ++ p.reports (Region.amid (outer ++ inner) region) inner.length)
        [(p.y, Scope.nested (outer.length + inner.length)), (p.r, Scope.nested outer.length),
          (p.x, Scope.nested outer.length)]) := by
  obtain ⟨more, rfl⟩ : ∃ more, levels = more + inner.length + 3 + outer.length :=
    ⟨levels - (outer.length + inner.length + 3), by omega⟩
  have hfirst : ∀ entry ∈ ([] : List (Local × Scope)), entry.1.id ≠ p.x.id := by simp
  have hsecond : ∀ entry ∈ [(p.x, Scope.nested outer.length)], entry.1.id ≠ p.r.id := by
    simp [p.ids_ne]
  apply Walker.DoesAll.enclose (k := 0) outer
  rw [Region.amid_append, Nat.zero_add]
  apply Walker.DoesAll.cons (Walker.does_declare hw p.x_passing p.xInit_literal hfirst)
  apply Walker.DoesAll.cons
    (Walker.does_declare_ref hw p.r_passing List.mem_cons_self hsecond p.x.ty p.referent)
  rw [Nat.add_right_comm more inner.length 3]
  exact Walker.DoesAll.enclose inner (p.does_innermost hw hdepth)

end Repointing

/-- What has been reported when the walk of a body begins is about the signature. -/
theorem Walker.diagnostics_initial (w : Walker) :
    w.initial.journal.diagnostics.toList =
      w.setting.method.captureWarnings w.setting.rules := by
  have hfold (ds : List Diagnostic) (s : State) :
      (ds.foldl (fun s d => s.note (.reported d)) s).journal.diagnostics.toList =
        s.journal.diagnostics.toList ++ ds := by
    induction ds generalizing s with
    | nil => simp
    | cons d ds ih =>
      have hnote : (s.note (.reported d)).journal.diagnostics.toList =
          s.journal.diagnostics.toList ++ [d] := by
        simp [State.note, Journal.push, Journal.diagnostics, Event.diagnostic?]
      rw [List.foldl_cons, ih, hnote, List.append_assoc, List.singleton_append]
  exact hfold _ _

/-- A reference that is re-pointed to a local of a nested block is reported once, whatever blocks
are around it, and as a warning if one of them is unsafe; re-pointed to a local of its own block, it
is not reported. -/
theorem analyze_repointing (method : Method) (p : Repointing) (outer inner : List Region)
    (hdepth : outer.length + inner.length < UInt32.size - 4) {options : Options}
    (hlimit : outer.length + inner.length + 3 ≤ options.maxDepth) :
    let report := analyze ⟨method, p.program outer inner⟩ options
    (∃ outcome, report.result = .ok outcome) ∧
      report.diagnostics.toList = method.captureWarnings options.rules ++
        if inner = [] then [] else
          [⟨.violation .refAssignNarrower
              (if method.isUnsafe = true ∨ .unchecked ∈ outer ++ inner then .warning else .error),
            p.right, [p.r.name, p.y.name]⟩] := by
  intro report
  let w : Walker := { setting := ⟨options.rules, method⟩, limit := options.maxDepth }
  have hsites : (Stmt.listSites (p.program outer inner)).Nodup := by
    rw [p.sites_program]
    exact p.distinct
  have hbegin : w.afresh.initial.Stage (method.captureWarnings options.rules) [] :=
    ⟨w.afresh.diagnostics_initial, by simp⟩
  -- No local is declared twice, so the analysis finds what it would find without memory.
  obtain ⟨hagree, hsame⟩ := Walker.analyze_alike (Walker.walkBody_first (w := w) rfl hsites)
  obtain ⟨t, hwalk, ht⟩ := (p.does_program (w := w.afresh) rfl hdepth hlimit).walkBody hbegin
  obtain ⟨outcome, hresult, hreported⟩ := Walker.analyze_of_walkBody hwalk
  rw [hresult] at hagree
  refine ⟨hagree.exists_ok, ?_⟩
  calc report.diagnostics.toList
      = t.journal.diagnostics.toList := congrArg Diagnostics.toList (hsame.trans hreported)
    _ = method.captureWarnings options.rules ++ p.reports
          (Region.amid (outer ++ inner) (.ofUnsafe method.isUnsafe)) inner.length := ht.diagnostics
    _ = _ := by
        simp only [Repointing.reports, Region.severity_amid, List.length_eq_zero_iff]

/-- The reference is declared in a block and re-pointed in a block of an unsafe block, as deep as
the limit allows. -/
theorem analyze_repointing_unsafe :
    let f : Method := { name := "f", returnTy := .int, span := default }
    let x : Local := { id := 0, name := "x", ty := .int, span := default }
    let r : Local := { id := 1, name := "r", ty := .int, passing := .byRef, span := default }
    let y : Local := { id := 2, name := "y", ty := .int, span := default }
    let place : Span := .onLine 5 9 10
    let zero : Expr := ⟨.literal, .int, default⟩
    let assignment : Expr :=
      ⟨.assignment ⟨.localVar r, .int, default⟩ ⟨.localVar y, .int, place⟩ true, .int, default⟩
    let body : List Stmt :=
      [.block
        [.declare ⟨x, some zero⟩, .declare ⟨r, some ⟨.localVar x, .int, default⟩⟩,
          .uncheckedBlock [.block [.declare ⟨y, none⟩, .eval assignment]]]]
    let report := analyze ⟨f, body⟩ { rules := .updated, maxDepth := 6 }
    (∃ outcome, report.result = .ok outcome) ∧ report.diagnostics.toList =
      [⟨.violation .refAssignNarrower .warning, place, ["r", "y"]⟩] := by
  intro f x r y place zero assignment body report
  let p : Repointing :=
    { x, r, y, xInit := some zero, yInit := none, referent := default, assignment := default,
      left := default, right := place, x_passing := rfl, y_passing := rfl, r_passing := rfl,
      r_plain := rfl, xInit_literal := by simp [zero], yInit_literal := by simp,
      distinct := by decide }
  have hlimit : [Region.checked].length + [Region.unchecked, .checked].length + 3 ≤ 6 := by decide
  exact analyze_repointing f p [.checked] [.unchecked, .checked] (by decide) hlimit

end RefLifetime
