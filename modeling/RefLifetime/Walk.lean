import RefLifetime.Journal
import RefLifetime.Memo
import RefLifetime.Rule.Stmt

/-!
# Walking a method body

`Walker.visit` carries out the plan of a node. Its recursion is on the number of levels that may
still be entered, so the depth limit is what makes the walk end. Mood, path and remaining levels are
handed down and never up: a visit leaves them as they were, whether it succeeds or fails.
-/

namespace RefLifetime

/-- What a walk has found out so far. -/
structure State where
  lifetimes : Lifetimes := .empty
  memo : Memo := .empty
  journal : Journal := {}
  deriving DecidableEq, Repr, Inhabited

namespace State

/-- Enters an event in the journal. -/
def note (s : State) (event : Event) : State := { s with journal := s.journal.push event }

/-- Enters an event unless the mood is quiet. -/
def tell (s : State) (mood : Mood) (event : Event) : State :=
  if mood.quiet then s else s.note event

/-- Records the lifetime of a local, also when nothing is reported. -/
def declare (s : State) (var : Local) (lifetime : Lifetime) : State :=
  { s.note (.declared var.name lifetime) with lifetimes := s.lifetimes.insert var.id lifetime }

/-- Remembers a computed scope. -/
def remember (s : State) (path : Path) (demand : Demand) (reading : Reading) : State :=
  { s with memo := s.memo.insert path demand reading }

end State

/-- A computation that may fail, and that keeps what it has found out when it does. -/
abbrev Walk := EStateM Failure State

/-- Carries out a plan in a given mood; `visit` meets its requests for parts of the node. Findings
and hints of a quiet plan are dropped. -/
def Plan.run {α : Type} (visit : Path → Node → Demand → Mood → Walk Scope) (mood : Mood) :
    Plan α → Walk α
  | .done result => pure result
  | .fail cause => throw cause
  | .visit route node demand inner next => do
    let scope ← visit route node demand (inner.within mood)
    (next scope).run visit mood
  | .lookup id next => do
    let state ← get
    (next (state.lifetimes.get? id)).run visit mood
  | .declare var lifetime next => do
    modify (·.declare var lifetime)
    next.run visit mood
  | .report finding next => do
    modify (·.tell mood (.reported (finding.inRegion mood.region)))
    next.run visit mood
  | .hint id next => do
    modify (·.tell mood (.hinted id))
    next.run visit mood

/-- A plan that continues another is carried out after it, in the same mood. -/
theorem Plan.run_bind {α β : Type} (visit : Path → Node → Demand → Mood → Walk Scope) (mood : Mood)
    (p : Plan α) (f : α → Plan β) :
    (p >>= f).run visit mood = p.run visit mood >>= fun a => (f a).run visit mood := by
  change (p.bind f).run visit mood = _
  induction p with
  | done result => simp only [Plan.bind, Plan.run, pure_bind]
  | fail cause => rfl
  | visit route node demand inner next ih => simp only [Plan.bind, Plan.run, ih, bind_assoc]
  | lookup id next ih => simp only [Plan.bind, Plan.run, ih, bind_assoc]
  | declare var lifetime next ih => simp only [Plan.bind, Plan.run, ih, bind_assoc]
  | report finding next ih => simp only [Plan.bind, Plan.run, ih, bind_assoc]
  | hint id next ih => simp only [Plan.bind, Plan.run, ih, bind_assoc]

/-- The place of a node; a statement without one is placed at `fallback`. -/
def Node.span (fallback : Span) : Node → Span
  | .expr e => e.span
  | .stmt s => s.span?.getD fallback

/-- What stays the same during a walk. -/
structure Walker where
  setting : Setting
  /-- How many levels of nesting may be entered. -/
  limit : Nat
  /-- Scopes computed before are used again. -/
  memoizes : Bool := true

namespace Walker

/-- Answers a visit from memory where possible, else by `compute`. Statements are never asked for
twice, so only expressions are remembered. -/
def remembering (w : Walker) (mood : Mood) (path : Path) (node : Node) (demand : Demand)
    (compute : Walk Scope) : Walk Scope :=
  match node with
  | .stmt _ => compute
  | .expr _ => do
    let state ← get
    match if w.memoizes then state.memo.answer? path demand mood.quiet else none with
    | some scope =>
      modify (·.note (.visited path demand mood.quiet true))
      return scope
    | none =>
      modify (·.note (.visited path demand mood.quiet false))
      let scope ← compute
      modify (·.remember path demand ⟨scope, mood.quiet⟩)
      return scope

/-- Visits the node at `path`, with `levels` more levels of nesting to go. A node that would be one
level too deep fails, unless its scope is remembered. -/
def visit (w : Walker) (levels : Nat) (mood : Mood) (path : Path) (node : Node) (demand : Demand) :
    Walk Scope :=
  match levels with
  | 0 =>
    w.remembering mood path node demand
      (throw (.depthExceeded w.limit (node.span w.setting.method.span)))
  | levels + 1 =>
    w.remembering mood path node demand
      ((Rule.node w.setting node demand).run
        (fun route part asked inner => w.visit levels inner (path ++ route) part asked) mood)

/-- Walks the statements of the method body. -/
def walkBody (w : Walker) (body : List Stmt) : Walk Unit :=
  (Rule.stmts [] body .methodBody).run
    (fun route part asked inner => w.visit w.limit inner route part asked)
    { region := .ofUnsafe w.setting.method.isUnsafe }

end Walker

end RefLifetime
