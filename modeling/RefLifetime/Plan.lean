import RefLifetime.Demand
import RefLifetime.Diagnostic.Basic
import RefLifetime.Failure
import RefLifetime.Lifetime
import RefLifetime.Path
import RefLifetime.Syntax.Stmt

/-!
# Plans

The rule for a syntax node does not walk the tree itself. It yields a plan: a tree of requests, each
with a continuation that sees nothing but the answer. How a request is met is not the rule's
business, so memoisation, the depth limit, silence and regions are settled once, by whoever carries
the plan out.
-/

namespace RefLifetime

/-- A syntax node that is visited as a unit. -/
inductive Node where
  | expr (expr : Expr)
  | stmt (stmt : Stmt)

/-- What the surroundings impose on a visit. -/
structure Mood where
  /-- Nothing is reported: the node's violations were reported before. -/
  quiet : Bool := false
  region : Region := .checked
  deriving DecidableEq, Repr, Inhabited

namespace Mood

/-- Whatever the surroundings impose stays in force inside. -/
def within (inner outer : Mood) : Mood :=
  ⟨inner.quiet || outer.quiet, inner.region.within outer.region⟩

end Mood

/-- A tree of requests that ends in a result or a failure. -/
inductive Plan (α : Type) where
  | done (result : α)
  | fail (cause : Failure)
  /-- Visits a part of the node, at the path `route` below it; the answer is its scope. -/
  | visit (route : Path) (node : Node) (demand : Demand) (mood : Mood) (next : Scope → Plan α)
  /-- Asks what is recorded for a local. -/
  | lookup (id : Nat) (next : Option Lifetime → Plan α)
  /-- Records the lifetime of a local. -/
  | declare (var : Local) (lifetime : Lifetime) (next : Plan α)
  | report (finding : Finding) (next : Plan α)
  /-- Notes that an array may be allocated on the stack. -/
  | hint (id : Nat) (next : Plan α)

namespace Plan

variable {α β : Type}

/-- Continues a plan with another that depends on its result. -/
def bind : Plan α → (α → Plan β) → Plan β
  | done result, f => f result
  | fail cause, _ => fail cause
  | visit route node demand mood next, f => visit route node demand mood fun s => (next s).bind f
  | lookup id next, f => lookup id fun l => (next l).bind f
  | declare var lifetime next, f => declare var lifetime (next.bind f)
  | report finding next, f => report finding (next.bind f)
  | hint id next, f => hint id (next.bind f)

/-- Plans are carried out one after another, the later with the result of the earlier. -/
instance : Monad Plan where
  pure := done
  bind := bind

private theorem bind_done (p : Plan α) : p.bind done = p := by
  induction p <;> simp_all [bind]

private theorem bind_bind {γ : Type} (p : Plan α) (f : α → Plan β) (g : β → Plan γ) :
    (p.bind f).bind g = p.bind fun a => (f a).bind g := by
  induction p <;> simp_all [bind]

/-- Plans obey the monad laws. -/
instance : LawfulMonad Plan := LawfulMonad.mk' Plan bind_done (fun _ _ => rfl) bind_bind

/-- Evaluates a part of the node. -/
def evaluate (route : Path) (e : Expr) (demand : Demand) : Plan Scope :=
  visit route (.expr e) demand {} done

/-- Evaluates a part of the node that is reported on by another visit. -/
def evaluateQuietly (route : Path) (e : Expr) (demand : Demand) : Plan Scope :=
  visit route (.expr e) demand { quiet := true } done

/-- Runs a statement that is part of the node. -/
def perform (route : Path) (s : Stmt) (demand : Demand) (region : Region := .checked) : Plan Unit :=
  visit route (.stmt s) demand { region := region } fun _ => done ()

/-- Records the lifetime of a local. -/
def declaring (var : Local) (lifetime : Lifetime) : Plan Unit := declare var lifetime (done ())

/-- Reports a violation when there is one. -/
def reportIf (violated : Bool) (finding : Finding) : Plan Unit :=
  if violated then report finding (done ()) else done ()

/-- Carries out a plan for each member of a list, from left to right, and collects the results. The
plans are told the positions of the members, counted from `start`. -/
def forEach (f : Nat → α → Plan β) (items : List α) (start : Nat := 0) : Plan (List β) :=
  match items with
  | [] => done []
  | item :: rest => do
    let result ← f start item
    let results ← forEach f rest (start + 1)
    return result :: results

/-- Evaluates a list of parts, from left to right, under one demand. -/
def evaluateAll (step : Nat → Step) (es : List Expr) (demand : Demand) : Plan (List Scope) :=
  forEach (fun i e => evaluate [step i] e demand) es

/-- Evaluates a part that may be absent. -/
def evaluate? (route : Path) (e : Option Expr) (demand : Demand) : Plan Unit :=
  match e with
  | none => done ()
  | some e => do discard (evaluate route e demand)

end Plan

end RefLifetime
