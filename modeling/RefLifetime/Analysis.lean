import RefLifetime.Walk

/-!
# Analysis of method bodies

`analyze` finds every use of a reference or value that could outlive what it refers to. Violations
are reported where they are found and the analysis goes on, so one run finds all of them.
-/

namespace RefLifetime

/-- The warnings that a method's signature calls for. A ref struct that is returned by value and can
hold references may carry any unscoped reference parameter out with it. -/
def Method.captureWarnings (m : Method) (rules : Rules) : List Diagnostic :=
  if rules.isUpdated && !m.returnsByRef && m.returnTy.holdsRefs then
    (m.params.filter fun p =>
      (p.passing = .byRef || p.passing = .byIn || p.passing = .byReadOnlyRef) &&
        p.modifier != .scopedRef).map fun p =>
      ⟨.mayCaptureRefParameter, p.span, [m.name, p.name]⟩
  else []

/-- What an analysis that does not fail finds out, besides its diagnostics. -/
structure Outcome where
  /-- The scope of the body itself, which as a statement has none. -/
  root : Scope
  /-- The arrays that may be allocated on the stack. -/
  hints : List Nat
  lifetimes : Lifetimes
  deriving DecidableEq, Repr

/-- The result of an analysis and the journal of how it came about. -/
structure Report where
  result : Except Failure Outcome
  journal : Journal

namespace Report

/-- The diagnostics of an analysis, also of one that failed. -/
def diagnostics (r : Report) : Diagnostics := r.journal.diagnostics

/-- The log of an analysis. -/
def log (r : Report) : List String := r.journal.log

end Report

namespace Walker

/-- The state in which the walk of a body begins: the signature has been looked at. -/
def initial (w : Walker) : State :=
  let m := w.setting.method
  let started : State := State.note {} (.started m.name w.setting.rules)
  (m.captureWarnings w.setting.rules).foldl (fun s d => s.note (.reported d)) started

/-- Analyses a body of the walker's method. -/
def analyze (w : Walker) (body : List Stmt) : Report :=
  match (w.walkBody body).run w.initial with
  | .ok _ s =>
    let m := w.setting.method
    let ended := s.note (.finished m.name s.journal.diagnostics.size s.journal.hints.length)
    ⟨.ok ⟨.unused, s.journal.hints, s.lifetimes⟩, ended.journal⟩
  | .error failure s => ⟨.error failure, s.journal⟩

end Walker

/-- Analyses one method body. -/
def analyze (body : Body) (options : Options) : Report :=
  let walker : Walker := { setting := ⟨options.rules, body.method⟩, limit := options.maxDepth }
  walker.analyze body.stmts

/-- Analyses one method body and adds its diagnostics to those of earlier ones. -/
def analyzeInto (earlier : Diagnostics) (body : Body) (options : Options) :
    Except Failure Outcome × Diagnostics :=
  let report := analyze body options
  (report.result, earlier ++ report.diagnostics)

/-- A way to apply a function to every item of a list, several at a time. It is left open how the
work is shared out and in what order it is done. -/
structure ParallelMap where
  run {α β : Type} (f : α → β) (items : List α) : List β

namespace ParallelMap

/-- Every result stands where its item stood, whichever was ready first. -/
def KeepsPlaces (pool : ParallelMap) : Prop :=
  ∀ {α β : Type} (f : α → β) (items : List α) (i : Nat), (pool.run f items)[i]? = items[i]?.map f

/-- One item after another. -/
def sequential : ParallelMap := ⟨List.map⟩

/-- Work that is done in order keeps its places. -/
theorem sequential_keepsPlaces : sequential.KeepsPlaces := fun _ _ _ => List.getElem?_map

end ParallelMap

/-- Analyses method bodies independently of each other, as the pool shares them out. The reports are
in the order of the bodies if the pool keeps places (`ParallelMap.KeepsPlaces`). -/
def analyzeAll (bodies : List Body) (options : Options) (pool : ParallelMap := .sequential) :
    List Report :=
  pool.run (analyze · options) bodies

end RefLifetime
