import RefLifetime.Proofs.Run

/-!
# Analyses one after another

Bodies may be analysed one after another with one list of diagnostics that every walk adds to
(`analyzeEach`). What a walk does depends on the lifetimes and scopes that it has found out itself,
so it does not matter what is on the list when it begins: it comes to the same result as alone, and
adds the same diagnostics. Bodies may also be shared out to a pool (`analyzeAll`), of which only the
order of its results is assumed (`ParallelMap.KeepsPlaces`).
-/

namespace RefLifetime

namespace State

/-- Nothing is known of a body yet, and the `earlier` diagnostics have been reported. -/
def onto (earlier : Diagnostics) : State :=
  { journal := ⟨(earlier.toList.map .reported).toArray⟩ }

private theorem diagnostics_onto (earlier : Diagnostics) :
    (onto earlier).journal.diagnostics.toList = earlier.toList := by
  simp only [onto, Journal.diagnostics, List.filterMap_map]
  exact List.filterMap_some

private theorem hints_onto (earlier : Diagnostics) : (onto earlier).journal.hints = [] := by
  simp only [onto, Journal.hints, List.filterMap_map]
  exact List.filterMap_eq_nil_iff.mpr fun _ _ => rfl

/-- The last entry of an analysis is no diagnostic. -/
theorem diagnostics_finished (s : State) (method : String) (diagnostics hints : Nat) :
    (s.note (.finished method diagnostics hints)).journal.diagnostics = s.journal.diagnostics := by
  refine congrArg Diagnostics.mk ((Journal.diagnostics_push _ _).trans ?_)
  exact List.append_nil _

/-- After the same events, the earlier diagnostics stand in front of the others, and that is all
the difference there is in what the journals tell. -/
theorem Echo.onto {path : Path} {earlier : Diagnostics} {s t : State}
    (h : Echo path {} (.onto earlier) s t) :
    t.journal.diagnostics = earlier ++ s.journal.diagnostics ∧
      t.journal.hints = s.journal.hints := by
  obtain ⟨events, hs, ht⟩ := h.events
  constructor
  · refine congrArg Diagnostics.mk (ht.diagnostics.trans ?_)
    rw [diagnostics_onto, hs.diagnostics]
    rfl
  · rw [ht.hints, hs.hints, hints_onto]
    rfl

/-- States that echo each other do so after the same reports. -/
theorem Echo.reports {path : Path} {s₀ t₀ s t : State} (h : Echo path s₀ t₀ s t)
    (found : List Diagnostic) :
    Echo path s₀ t₀ (found.foldl (fun s d => s.note (.reported d)) s)
      (found.foldl (fun s d => s.note (.reported d)) t) := by
  induction found generalizing s t with
  | nil => exact h
  | cons d rest ih => exact ih (h.note (.reported d))

end State

namespace Walker

variable (w : Walker)

/-- The state in which the walk of a body begins if it adds to `earlier` diagnostics. -/
def initialOnto (earlier : Diagnostics) : State :=
  let m := w.setting.method
  let started := (State.onto earlier).note (.started m.name w.setting.rules)
  (m.captureWarnings w.setting.rules).foldl (fun s d => s.note (.reported d)) started

/-- Analyses a body of the walker's method; the walk itself adds to the `earlier` diagnostics. -/
def analyzeOnto (earlier : Diagnostics) (body : List Stmt) :
    Except Failure Outcome × Diagnostics :=
  match (w.walkBody body).run (w.initialOnto earlier) with
  | .ok _ s => (.ok ⟨.unused, s.journal.hints, s.lifetimes⟩, s.journal.diagnostics)
  | .error failure s => (.error failure, s.journal.diagnostics)

/-- Both beginnings differ in the earlier diagnostics only. -/
theorem initial_echo (earlier : Diagnostics) :
    State.Echo [] {} (.onto earlier) w.initial (w.initialOnto earlier) := by
  have hagree : State.Agree [] {} (.onto earlier) := ⟨rfl, fun _ _ _ => rfl⟩
  exact (hagree.echo.note (.started w.setting.method.name w.setting.rules)).reports _

/-- The same events happen in both walks. -/
theorem walkBody_agree (body : List Stmt) {s₀ t₀ s t : State} (h : State.Echo [] s₀ t₀ s t) :
    Ending.Alike (fun _ s' _ t' => State.Echo [] s₀ t₀ s' t') (State.Echo [] s₀ t₀)
      (w.walkBody body s) (w.walkBody body t) :=
  (w.carryOut_agree w.limit _ [] _ h).imp (fun _ _ _ _ h => h.2) fun _ _ h => h

/-- What a walk adds to earlier diagnostics is what it reports by itself. -/
theorem analyzeOnto_eq (earlier : Diagnostics) (body : List Stmt) :
    w.analyzeOnto earlier body =
      ((w.analyze body).result, earlier ++ (w.analyze body).diagnostics) := by
  have hwalk := w.walkBody_agree body (w.initial_echo earlier)
  unfold analyzeOnto analyze EStateM.run
  generalize w.walkBody body w.initial = ending at hwalk
  generalize w.walkBody body (w.initialOnto earlier) = ending' at hwalk
  cases hwalk with
  | ok h =>
    obtain ⟨hd, hh⟩ := h.onto
    simp only [Report.diagnostics, State.diagnostics_finished, hd, hh, h.agree.lifetimes]
  | error h =>
    obtain ⟨hd, -⟩ := h.onto
    simp only [Report.diagnostics, hd]

end Walker

/-- Analyses one method body; the walk itself adds to the `earlier` diagnostics. -/
def analyzeOnto (earlier : Diagnostics) (body : Body) (options : Options) :
    Except Failure Outcome × Diagnostics :=
  let walker : Walker := { setting := ⟨options.rules, body.method⟩, limit := options.maxDepth }
  walker.analyzeOnto earlier body.stmts

/-- Analyses method bodies one after another, each under its own options. All add to the same
diagnostics. -/
def analyzeEach (earlier : Diagnostics) :
    List (Body × Options) → List (Except Failure Outcome) × Diagnostics
  | [] => ([], earlier)
  | job :: rest =>
    let first := analyzeOnto earlier job.1 job.2
    let others := analyzeEach first.2 rest
    (first.1 :: others.1, others.2)

private theorem analyzeOnto_eq_analyzeInto (earlier : Diagnostics) (body : Body)
    (options : Options) : analyzeOnto earlier body options = analyzeInto earlier body options :=
  Walker.analyzeOnto_eq _ earlier body.stmts

private theorem analyzeEach_eq (earlier : Diagnostics) (jobs : List (Body × Options)) :
    (analyzeEach earlier jobs).1 = jobs.map (fun job => (analyze job.1 job.2).result) ∧
      (analyzeEach earlier jobs).2.toList =
        earlier.toList ++ jobs.flatMap fun job => (analyze job.1 job.2).diagnostics.toList := by
  induction jobs generalizing earlier with
  | nil => exact ⟨rfl, (List.append_nil _).symm⟩
  | cons job rest ih =>
    obtain ⟨hresults, hfound⟩ := ih (earlier ++ (analyze job.1 job.2).diagnostics)
    rw [analyzeEach, analyzeOnto_eq_analyzeInto]
    constructor
    · exact congrArg (List.cons _) hresults
    · rw [List.flatMap_cons, ← List.append_assoc]
      exact hfound

/-- A pool that keeps places does what is done one after another. -/
theorem ParallelMap.KeepsPlaces.run_eq {pool : ParallelMap} (h : pool.KeepsPlaces) {α β : Type}
    (f : α → β) (items : List α) : pool.run f items = items.map f := by
  apply List.ext_getElem?
  intro i
  rw [h f items i, List.getElem?_map]

/-- Analyses are independent of each other. However many bodies are analysed one after another, and
whatever was reported before, each comes to the result that it has alone, and the diagnostics are
the earlier ones followed by those that each body has alone, in order, also where an analysis fails.
Nor does it matter whether a walk adds to the earlier diagnostics or its own are added in the end.
The analysis of a list of bodies, several at a time, gives the same results and diagnostics, in the
order of the bodies, if the pool that does it keeps places. -/
theorem analyzeEach_eq_alone (earlier : Diagnostics) (jobs : List (Body × Options)) :
    (analyzeEach earlier jobs).1 = jobs.map (fun job => (analyzeInto {} job.1 job.2).1) ∧
    (analyzeEach earlier jobs).2.toList =
      earlier.toList ++ jobs.flatMap (fun job => (analyzeInto {} job.1 job.2).2.toList) ∧
    (∀ body options, analyzeOnto earlier body options = analyzeInto earlier body options) ∧
    ∀ pool : ParallelMap, pool.KeepsPlaces → ∀ bodies options,
      (analyzeAll bodies options pool).map (fun report => (report.result, report.diagnostics)) =
        bodies.map (analyzeInto {} · options) := by
  obtain ⟨hresults, hfound⟩ := analyzeEach_eq earlier jobs
  refine ⟨hresults, hfound, analyzeOnto_eq_analyzeInto earlier, ?_⟩
  intro pool hpool bodies options
  rw [analyzeAll, hpool.run_eq, List.map_map]
  rfl

namespace ParallelMap

/-- Splits the items in halves, and these again, as often as `splits` says. The two halves are done
apart from each other, and their results are put together in order. -/
def forkJoin (splits : Nat) : ParallelMap := ⟨go splits⟩
where
  go {α β : Type} : Nat → (α → β) → List α → List β
    | 0, f, items => items.map f
    | splits + 1, f, items =>
      let half := items.length / 2
      go splits f (items.take half) ++ go splits f (items.drop half)

private theorem forkJoin_go_eq {α β : Type} (splits : Nat) (f : α → β) (items : List α) :
    forkJoin.go splits f items = items.map f := by
  induction splits generalizing items with
  | zero => rfl
  | succ splits ih =>
    rw [forkJoin.go, ih, ih, ← List.map_append, List.take_append_drop]

/-- Work that is split in halves keeps its places. -/
theorem forkJoin_keepsPlaces (splits : Nat) : (forkJoin splits).KeepsPlaces := by
  intro α β f items i
  change (forkJoin.go splits f items)[i]? = _
  rw [forkJoin_go_eq, List.getElem?_map]

end ParallelMap

/-- Three bodies are analysed, the first and the last of which fail after a report. Those before do
not matter to those behind. The reports are the same whether the work is split in halves or done in
order. -/
theorem analyzeEach_eq_alone_failing :
    let x : Local := { id := 0, name := "x", ty := .int, span := default }
    let ghost : Local := { id := 1, name := "ghost", ty := .int, span := default }
    let f : Method := { name := "f", returnTy := .int, returnPassing := .byRef, span := default }
    let literal : Expr := ⟨.literal, .int, default⟩
    let returned (var : Local) : Stmt := .ret (some ⟨.localVar var, .int, default⟩)
    let complete : Body := ⟨f, [.declare ⟨x, some literal⟩, returned x]⟩
    let broken : Body := ⟨f, [.declare ⟨x, some literal⟩, returned x, returned ghost]⟩
    let options : Options := ⟨.updated, 16⟩
    let bodies := [broken, complete, broken]
    let code : Code := .violation .refReturnLocal .error
    (ParallelMap.forkJoin 2).KeepsPlaces ∧
      (analyzeInto {} broken options).1 = .error (.undeclaredLocal "ghost" default) ∧
      (analyzeInto {} broken options).2.codes = [code] ∧
      (analyzeEach {} (bodies.map (·, options))).2.codes = [code, code, code] ∧
      (analyzeAll bodies options (.forkJoin 2)).map (fun r => (r.result, r.diagnostics)) =
        bodies.map (analyzeInto {} · options) ∧
      (analyzeAll bodies options).map (fun r => (r.result, r.diagnostics)) =
        bodies.map (analyzeInto {} · options) := by
  intro x ghost f literal returned complete broken options bodies code
  obtain ⟨-, hfound, -, hpool⟩ := analyzeEach_eq_alone {} (bodies.map (·, options))
  refine ⟨ParallelMap.forkJoin_keepsPlaces 2, rfl, rfl, ?_, ?_, ?_⟩
  · rw [Diagnostics.codes, hfound]
    rfl
  · exact hpool (.forkJoin 2) (ParallelMap.forkJoin_keepsPlaces 2) bodies options
  · exact hpool .sequential ParallelMap.sequential_keepsPlaces bodies options

end RefLifetime
