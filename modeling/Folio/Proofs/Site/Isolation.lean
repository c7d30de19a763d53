import Folio.Site.Build

namespace Folio.Site

open Markup

variable {σ : Type}

instance : Append Report where
  append r r' := ⟨r.rendered ++ r'.rendered, r.skipped ++ r'.skipped⟩

theorem Report.append_def (r r' : Report) :
    r ++ r' = ⟨r.rendered ++ r'.rendered, r.skipped ++ r'.skipped⟩ :=
  rfl

/-- A source with what became of it: nothing where its page was stored, else why it was skipped. -/
abbrev Handled := Source × Option SiteError

def Report.of (hs : List Handled) : Report where
  rendered := (hs.filter (·.2.isNone)).map (·.1.name)
  skipped := hs.filterMap fun h ↦ h.2.map (h.1.name, ·)

theorem Report.of_cons (h : Handled) (hs : List Handled) :
    Report.of (h :: hs) = Report.of [h] ++ Report.of hs := by
  obtain ⟨s, fate⟩ := h
  cases fate with
  | none => rfl
  | some e => rfl

structure Call where
  name : String
  fragment : String
  refusal : Option SiteError
deriving DecidableEq, Repr

/-- The assembler with a record of the calls made to it, the latest last. -/
def recorded (assemble : Assembler σ) : Assembler (σ × List Call) :=
  fun name fragment (state, calls) ↦
    match assemble name fragment state with
    | (.ok _, state) => (.ok (), state, calls ++ [⟨name, fragment, none⟩])
    | (.error e, state) => (.error e, state, calls ++ [⟨name, fragment, some e⟩])

def callOf (h : Handled) : Option Call :=
  match Document.parse h.1.text with
  | .ok d => some ⟨h.1.name, Html.fragment .cpp d, h.2⟩
  | .error _ => none

def handled (assemble : Assembler σ) : List Source → σ → List Handled
  | [], _ => []
  | s :: ss, state =>
    (s, (buildOne assemble s state).1) :: handled assemble ss (buildOne assemble s state).2

theorem map_fst_handled (assemble : Assembler σ) (ss : List Source) (state : σ) :
    (handled assemble ss state).map Prod.fst = ss := by
  induction ss generalizing state with
  | nil => rfl
  | cons s ss ih => rw [handled, List.map_cons, ih]

theorem buildOne_malformed {assemble : Assembler σ} {s : Source} {e : ParseError}
    (h : Document.parse s.text = .error e) (state : σ) :
    buildOne assemble s state = (some (.malformed s.name e), state) := by
  rw [buildOne, h]

theorem handled_malformed {assemble : Assembler σ} {ss : List Source} {state : σ} {h : Handled}
    {e : ParseError} (hh : h ∈ handled assemble ss state)
    (he : Document.parse h.1.text = .error e) : h.2 = some (.malformed h.1.name e) := by
  induction ss generalizing state with
  | nil => cases hh
  | cons s ss ih =>
    rcases List.mem_cons.1 hh with rfl | hh
    · exact congrArg Prod.fst (buildOne_malformed he state)
    · exact ih hh

theorem buildOne_recorded (assemble : Assembler σ) (s : Source) (state : σ) (calls : List Call) :
    buildOne (recorded assemble) s (state, calls) =
      ((buildOne assemble s state).1, (buildOne assemble s state).2,
        calls ++ (callOf (s, (buildOne assemble s state).1)).toList) := by
  cases hs : Document.parse s.text with
  | error e =>
    rw [buildOne_malformed hs, buildOne_malformed hs, callOf, hs]
    simp
  | ok d =>
    simp only [buildOne, callOf, recorded, hs]
    rcases assemble s.name (Html.fragment .cpp d) state with ⟨answer, state'⟩
    cases answer with
    | ok => rfl
    | error e => rfl

theorem build_cons (assemble : Assembler σ) (s : Source) (ss : List Source) (state : σ) :
    build assemble (s :: ss) state =
      (Report.of [(s, (buildOne assemble s state).1)] ++
          (build assemble ss (buildOne assemble s state).2).1,
        (build assemble ss (buildOne assemble s state).2).2) := by
  rw [build]
  rcases buildOne assemble s state with ⟨fate, state'⟩
  cases fate with
  | none => rfl
  | some e => rfl

theorem build_report (assemble : Assembler σ) (ss : List Source) (state : σ) :
    (build assemble ss state).1 = Report.of (handled assemble ss state) := by
  induction ss generalizing state with
  | nil => rfl
  | cons s ss ih => rw [build_cons, handled, Report.of_cons _ (handled ..), ih]

theorem build_recorded (assemble : Assembler σ) (ss : List Source) (state : σ)
    (calls : List Call) :
    build (recorded assemble) ss (state, calls) =
      ((build assemble ss state).1, (build assemble ss state).2,
        calls ++ (handled assemble ss state).filterMap callOf) := by
  induction ss generalizing state calls with
  | nil => simp [build, handled]
  | cons s ss ih =>
    rw [build_cons, buildOne_recorded, ih, build_cons, handled]
    cases hcall : callOf (s, (buildOne assemble s state).1) with
    | none => simp [hcall]
    | some call => simp [hcall]

theorem build_append (assemble : Assembler σ) (ss ts : List Source) (state : σ) :
    build assemble (ss ++ ts) state =
      ((build assemble ss state).1 ++ (build assemble ts (build assemble ss state).2).1,
        (build assemble ts (build assemble ss state).2).2) := by
  induction ss generalizing state with
  | nil => rfl
  | cons s ss ih =>
    rw [List.cons_append, build_cons, build_cons, ih]
    simp only [Report.append_def, List.append_assoc]

/-- A build handles its sources one by one in their order. For each that can be read it makes one
call, with the name and the fragment of that source; the answer decides what becomes of it. One
that cannot be read is skipped for its own error. A longer build goes on where a shorter one
ended. -/
theorem build_isolated (assemble : Assembler σ) :
    (∀ ss state, ∃ hs : List Handled, hs.map Prod.fst = ss ∧
      (∀ h ∈ hs, ∀ e, Document.parse h.1.text = .error e →
        h.2 = some (.malformed h.1.name e)) ∧
      build assemble ss state = (Report.of hs, (build assemble ss state).2) ∧
      build (recorded assemble) ss (state, []) =
        (Report.of hs, (build assemble ss state).2, hs.filterMap callOf)) ∧
    ∀ ss ts state, build assemble (ss ++ ts) state =
      ((build assemble ss state).1 ++ (build assemble ts (build assemble ss state).2).1,
        (build assemble ts (build assemble ss state).2).2) := by
  refine ⟨fun ss state ↦ ⟨handled assemble ss state, map_fst_handled assemble ss state,
    fun h hh e he ↦ handled_malformed hh he, ?_, ?_⟩, build_append assemble⟩
  · rw [← build_report]
  · rw [← build_report, build_recorded, List.nil_append]

end Folio.Site
