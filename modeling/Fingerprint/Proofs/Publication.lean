import Fingerprint.WriteOnce

/-!
# A cell is written once

The boundaries of the steps of a run, those of nested runs included, in order of time, are a log. At
each of them the cell holds the value of the first initializer that is done by then, if any is. So
whatever initializers do with the cell before they return, it is published once and for all by the
first that completes, and each of them is answered with its own value.
-/

namespace Fingerprint.WriteOnce
set_option autoImplicit false

variable {α : Type}

/-! ## Boundaries of steps -/

/-- The initializer ran. -/
def Answer.ran : Answer α → Bool
  | .init _ (some _) => true
  | _ => false

/-- A step begins, or ends with its answer, having started on some cell; with the cell at that time. -/
inductive Event (α : Type) where
  | began (step : Step α) (cell : WriteOnce α)
  | ended (step : Step α) (start : WriteOnce α) (answer : Answer α) (cell : WriteOnce α)

namespace Event

def cell : Event α → WriteOnce α
  | began _ c => c
  | ended _ _ _ c => c

/-- The value of an initializer that ran and is done. -/
def supplied? : Event α → Option α
  | ended _ _ (.init v (some _)) _ => some v
  | _ => none

/-- An initialization is complete, whether its initializer ran or not. -/
def completes : Event α → Bool
  | ended (.init _ _) _ _ _ => true
  | _ => false

end Event

mutual

/-- What happens between the two boundaries of a step: the inner run, if the initializer ran. -/
def innerEvents : Step α → WriteOnce α → List (Event α)
  | .init v inner, c => if (step (.init v inner) c).1.ran then runEvents inner c else []
  | .get, _ => []
  | .debug, _ => []

/-- The boundaries of all steps of a run, at all depths, in order of time. -/
def runEvents : List (Step α) → WriteOnce α → List (Event α)
  | [], _ => []
  | s :: rest, c =>
    .began s c :: (innerEvents s c ++
      .ended s c (step s c).1 (step s c).2 :: runEvents rest (step s c).2)

end

def stepEvents (s : Step α) (c : WriteOnce α) : List (Event α) :=
  .began s c :: (innerEvents s c ++ [.ended s c (step s c).1 (step s c).2])

theorem runEvents_cons (s : Step α) (rest : List (Step α)) (c : WriteOnce α) :
    runEvents (s :: rest) c = stepEvents s c ++ runEvents rest (step s c).2 := by
  simp [runEvents, stepEvents]

/-! ## Cells between steps -/

/-- The cell that has published the value, if there is one. -/
def ofValue : Option α → WriteOnce α
  | none => empty
  | some v => ready v

@[simp] theorem get_ofValue (p : Option α) : (ofValue p).get = p := by cases p <;> rfl

theorem ofValue_ne_writing (p : Option α) : ofValue p ≠ writing := by cases p <;> nofun

theorem ofValue_eq_empty_iff {p : Option α} : ofValue p = empty ↔ p = none := by
  cases p <;> simp [ofValue]

theorem publish_ofValue (v : α) (p : Option α) :
    (ofValue p).publish v = ofValue (p.or (some v)) := by
  cases p <;> rfl

section
variable (v : α) (inner : List (Step α))

theorem step_init_empty :
    step (.init v inner) empty =
      (.init v (some (run inner empty).1), (run inner empty).2.publish v) := rfl

theorem step_init_ready (p : α) : step (.init v inner) (ready p) = (.init p none, ready p) := rfl

theorem stepEvents_init_empty :
    stepEvents (.init v inner) empty = .began (.init v inner) empty :: (runEvents inner empty ++
      [.ended (.init v inner) empty (.init v (some (run inner empty).1))
        ((run inner empty).2.publish v)]) := rfl

theorem stepEvents_init_ready (p : α) :
    stepEvents (.init v inner) (ready p) =
      [.began (.init v inner) (ready p), .ended (.init v inner) (ready p) (.init p none) (ready p)] :=
  rfl

end

/-! ## The cell along a log -/

/-- The value of the first initializer that is done. -/
def firstSupplied (log : List (Event α)) : Option α := log.findSome? Event.supplied?

@[simp] theorem firstSupplied_nil : firstSupplied ([] : List (Event α)) = none := rfl

@[simp] theorem firstSupplied_cons (e : Event α) (log : List (Event α)) :
    firstSupplied (e :: log) = e.supplied?.or (firstSupplied log) := by
  rw [firstSupplied, List.findSome?_cons]
  cases e.supplied? <;> rfl

@[simp] theorem firstSupplied_append (log more : List (Event α)) :
    firstSupplied (log ++ more) = (firstSupplied log).or (firstSupplied more) :=
  List.findSome?_append

/-- With `p` published before, the cell at each event holds `p`, or else what was supplied first. -/
def Tracks : Option α → List (Event α) → Prop
  | _, [] => True
  | p, e :: rest => e.cell = ofValue (p.or e.supplied?) ∧ Tracks (p.or e.supplied?) rest

theorem tracks_append (p : Option α) (log more : List (Event α)) :
    Tracks p (log ++ more) ↔ Tracks p log ∧ Tracks (p.or (firstSupplied log)) more := by
  induction log generalizing p with
  | nil => simp [Tracks]
  | cons e log ih =>
    rw [List.cons_append, Tracks, ih, Tracks, firstSupplied_cons, Option.or_assoc, and_assoc]

theorem Tracks.cell_eq {p : Option α} {earlier later : List (Event α)} {e : Event α}
    (h : Tracks p (earlier ++ e :: later)) :
    e.cell = ofValue (p.or (firstSupplied (earlier ++ [e]))) := by
  rw [((tracks_append p earlier (e :: later)).1 h).2.1, firstSupplied_append, Option.or_assoc]
  simp

mutual

/-- One step keeps track, and leaves a cell between steps in such a cell. -/
theorem stepEvents_tracks (s : Step α) (p : Option α) :
    Tracks p (stepEvents s (ofValue p)) ∧
      (step s (ofValue p)).2 = ofValue (p.or (firstSupplied (stepEvents s (ofValue p)))) := by
  cases s with
  | get => simp [stepEvents, innerEvents, Tracks, step, Event.cell, Event.supplied?]
  | debug => simp [stepEvents, innerEvents, Tracks, step, Event.cell, Event.supplied?]
  | init v inner =>
    cases p with
    | some p =>
      simp [ofValue, stepEvents_init_ready, step_init_ready, Tracks, Event.cell, Event.supplied?]
    | none =>
      -- The inner run starts on the empty cell; what it leaves decides which value is published.
      obtain ⟨htracks, hcell⟩ := runEvents_tracks inner none
      rw [Option.none_or] at hcell
      rw [ofValue] at htracks hcell ⊢
      rw [step_init_empty, stepEvents_init_empty, hcell, publish_ofValue]
      simp [Tracks, tracks_append, htracks, Event.cell, Event.supplied?, ofValue]

theorem runEvents_tracks (steps : List (Step α)) (p : Option α) :
    Tracks p (runEvents steps (ofValue p)) ∧
      (run steps (ofValue p)).2 = ofValue (p.or (firstSupplied (runEvents steps (ofValue p)))) := by
  cases steps with
  | nil => simp [runEvents, Tracks, run]
  | cons s rest =>
    obtain ⟨hstep, hcell⟩ := stepEvents_tracks s p
    obtain ⟨hrest, hlast⟩ := runEvents_tracks rest (p.or (firstSupplied (stepEvents s (ofValue p))))
    rw [← hcell] at hrest hlast
    rw [runEvents_cons, tracks_append, firstSupplied_append, ← Option.or_assoc]
    exact ⟨⟨hstep, hrest⟩, hlast⟩

end

theorem cell_eq_of_split {steps : List (Step α)} {earlier later : List (Event α)} {e : Event α}
    (h : runEvents steps empty = earlier ++ e :: later) :
    e.cell = ofValue (firstSupplied (earlier ++ [e])) := by
  have htracks := (runEvents_tracks steps none).1
  rw [ofValue, h] at htracks
  rw [htracks.cell_eq, Option.none_or]

theorem exists_cell_eq {steps : List (Step α)} {e : Event α} (h : e ∈ runEvents steps empty) :
    ∃ p, e.cell = ofValue p := by
  obtain ⟨earlier, later, hsplit⟩ := List.append_of_mem h
  exact ⟨_, cell_eq_of_split hsplit⟩

/-! ## Steps in a log -/

mutual

/-- The end of a step in a log tells what the step came to on the cell that it began with. -/
theorem ended_mem_stepEvents (s : Step α) (c₀ : WriteOnce α) {t : Step α} {start cell : WriteOnce α}
    {answer : Answer α} (h : .ended t start answer cell ∈ stepEvents s c₀) :
    step t start = (answer, cell) ∧ .began t start ∈ stepEvents s c₀ := by
  rcases List.mem_cons.1 h with h | h
  · cases h
  rcases List.mem_append.1 h with h | h
  · cases s with
    | get => cases h
    | debug => cases h
    | init v inner =>
      rw [innerEvents] at h
      split at h
      · case isTrue hran =>
        obtain ⟨hstep, hbegan⟩ := ended_mem_runEvents inner c₀ h
        refine ⟨hstep, List.mem_cons_of_mem _ (List.mem_append_left _ ?_)⟩
        rwa [innerEvents, if_pos hran]
      · cases h
  · cases List.mem_singleton.1 h
    exact ⟨rfl, List.mem_cons_self⟩

theorem ended_mem_runEvents (steps : List (Step α)) (c₀ : WriteOnce α) {t : Step α}
    {start cell : WriteOnce α} {answer : Answer α}
    (h : .ended t start answer cell ∈ runEvents steps c₀) :
    step t start = (answer, cell) ∧ .began t start ∈ runEvents steps c₀ := by
  cases steps with
  | nil =>
    rw [runEvents] at h
    cases h
  | cons s rest =>
    rw [runEvents_cons, List.mem_append] at h ⊢
    rcases h with h | h
    · obtain ⟨hstep, hbegan⟩ := ended_mem_stepEvents s c₀ h
      exact ⟨hstep, .inl hbegan⟩
    · obtain ⟨hstep, hbegan⟩ := ended_mem_runEvents rest _ h
      exact ⟨hstep, .inr hbegan⟩

end

/-- What one initialization does to a cell between steps. -/
structure Initializes (v : α) (inner : List (Step α)) (start : WriteOnce α) (answer : Answer α)
    (cell : WriteOnce α) : Prop where
  ran_iff : answer.ran ↔ start.get = none
  returnsPublished : ∀ p, start.get = some p → answer = .init p none ∧ cell = start
  returnsOwn : start.get = none → answer = .init v (some (run inner start).1)
  publishes : cell.get ≠ none

theorem step_initializes (v : α) (inner : List (Step α)) (p : Option α) :
    Initializes v inner (ofValue p) (step (.init v inner) (ofValue p)).1
      (step (.init v inner) (ofValue p)).2 := by
  cases p with
  | some p =>
    rw [ofValue, step_init_ready]
    exact {
      ran_iff := by simp [Answer.ran, get]
      returnsPublished := fun q hq => by cases hq; exact ⟨rfl, rfl⟩
      returnsOwn := nofun
      publishes := nofun }
  | none =>
    have hcell := (runEvents_tracks inner none).2
    rw [ofValue] at hcell ⊢
    rw [step_init_empty, hcell, publish_ofValue]
    exact {
      ran_iff := by simp [Answer.ran, get]
      returnsPublished := nofun
      returnsOwn := fun _ => rfl
      publishes := by simp }

section
variable {steps : List (Step α)}

theorem ended_initializes {v : α} {inner : List (Step α)} {start cell : WriteOnce α}
    {answer : Answer α} (h : .ended (.init v inner) start answer cell ∈ runEvents steps empty) :
    Initializes v inner start answer cell := by
  obtain ⟨hstep, hbegan⟩ := ended_mem_runEvents steps empty h
  obtain ⟨p, hp⟩ := exists_cell_eq hbegan
  have hstart : start = ofValue p := hp
  have hinit := step_initializes v inner p
  rwa [← hstart, hstep] at hinit

/-- Only an initialization supplies a value. -/
theorem completes_of_supplied {e : Event α} {v : α} (he : e ∈ runEvents steps empty)
    (h : e.supplied? = some v) : e.completes = true := by
  cases e with
  | began t c => cases h
  | ended t start answer cell =>
    obtain ⟨hstep, -⟩ := ended_mem_runEvents steps empty he
    cases t with
    | init v inner => rfl
    | get => cases hstep; cases h
    | debug => cases hstep; cases h

theorem published_of_completes {e : Event α} (he : e ∈ runEvents steps empty)
    (h : e.completes = true) : e.cell.get ≠ none := by
  cases e with
  | began t c => cases h
  | ended t start answer cell =>
    cases t with
    | init v inner => exact (ended_initializes he).publishes
    | get => cases h
    | debug => cases h

theorem cell_eq_empty_iff {earlier later : List (Event α)} {e : Event α}
    (h : runEvents steps empty = earlier ++ e :: later) :
    e.cell = empty ↔ ∀ d ∈ earlier ++ [e], d.completes = false := by
  have hmem : ∀ d ∈ earlier ++ [e], d ∈ runEvents steps empty := by
    intro d hd
    rw [h, List.append_cons]
    exact List.mem_append_left _ hd
  rw [cell_eq_of_split h, ofValue_eq_empty_iff]
  constructor
  · intro hnone d hd
    -- A complete one among them would have published by its end.
    obtain ⟨before, after, hsplit⟩ := List.append_of_mem hd
    have hlog : runEvents steps empty = before ++ d :: (after ++ later) := by
      rw [h, List.append_cons, hsplit, List.append_assoc, List.cons_append]
    have hcell : d.cell.get = firstSupplied (before ++ [d]) := by
      rw [cell_eq_of_split hlog, get_ofValue]
    rw [hsplit, List.append_cons, firstSupplied_append, Option.or_eq_none_iff] at hnone
    refine Bool.eq_false_iff.2 fun hd' => published_of_completes (hmem d hd) hd' ?_
    rw [hcell, hnone.1]
  · intro hall
    refine List.findSome?_eq_none_iff.2 fun d hd => ?_
    cases hv : d.supplied? with
    | none => rfl
    | some v =>
      have hcompletes := completes_of_supplied (hmem d hd) hv
      rw [hall d hd] at hcompletes
      cases hcompletes

/-- What is published by one boundary is still published, and the same, at any later one. -/
theorem get_eq_of_earlier {earlier between later : List (Event α)} {d e : Event α} {v : α}
    (h : runEvents steps empty = earlier ++ d :: (between ++ e :: later))
    (hd : d.cell.get = some v) : e.cell.get = some v := by
  have hlater : runEvents steps empty = (earlier ++ d :: between) ++ e :: later := by
    rw [h, List.append_assoc, List.cons_append]
  rw [cell_eq_of_split h, get_ofValue] at hd
  rw [cell_eq_of_split hlater, get_ofValue, firstSupplied_append, List.append_cons,
    firstSupplied_append, hd, Option.some_or, Option.some_or]

end

/-! ## All of it -/

/-- What holds of a run on a new cell, at every boundary of a step at any depth. -/
structure PublishesOnce (steps : List (Step α)) : Prop where
  settled : ∀ e ∈ runEvents steps empty, e.cell ≠ writing
  first : ∀ {earlier later : List (Event α)} {e : Event α},
    runEvents steps empty = earlier ++ e :: later →
      e.cell.get = firstSupplied (earlier ++ [e])
  unpublished : ∀ {earlier later : List (Event α)} {e : Event α},
    runEvents steps empty = earlier ++ e :: later →
      (e.cell = empty ↔ ∀ d ∈ earlier ++ [e], d.completes = false)
  kept : ∀ {earlier between later : List (Event α)} {d e : Event α} {v : α},
    runEvents steps empty = earlier ++ d :: (between ++ e :: later) →
      d.cell.get = some v → e.cell.get = some v
  steps_eq : ∀ {s : Step α} {start cell : WriteOnce α} {answer : Answer α},
    .ended s start answer cell ∈ runEvents steps empty →
      step s start = (answer, cell) ∧ .began s start ∈ runEvents steps empty
  initializes : ∀ {v : α} {inner : List (Step α)} {start cell : WriteOnce α} {answer : Answer α},
    .ended (.init v inner) start answer cell ∈ runEvents steps empty →
      Initializes v inner start answer cell
  last : (run steps empty).2 = ofValue (firstSupplied (runEvents steps empty))

/-- An initializer runs if and only if the cell has no value when its initialization starts, and gets
its own value back whatever is published meanwhile; the cell has the value of the first that is done,
from then on, and is never found half written. -/
theorem run_publishesOnce (steps : List (Step α)) : PublishesOnce steps where
  settled e he := by
    obtain ⟨p, hp⟩ := exists_cell_eq he
    rw [hp]
    exact ofValue_ne_writing p
  first h := by rw [cell_eq_of_split h, get_ofValue]
  unpublished := cell_eq_empty_iff
  kept := get_eq_of_earlier
  steps_eq := ended_mem_runEvents steps empty
  initializes := ended_initializes
  last := by
    have hlast := (runEvents_tracks steps none).2
    rwa [Option.none_or] at hlast

/-- The initializer of `2` runs inside that of `1` and is done first. -/
theorem run_nested_publishes_inner :
    (run [.init 1 [.get, .init 2 []], .init 3 []] empty).2 = ready 2 :=
  (run_publishesOnce [.init 1 [.get, .init 2 []], .init 3 []]).last

end Fingerprint.WriteOnce
