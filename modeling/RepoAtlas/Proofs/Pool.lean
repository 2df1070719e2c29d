import Mathlib.Data.List.Nodup
import Mathlib.Data.List.Range
import Mathlib.Logic.Relation
import RepoAtlas.Pool

/-!
What a pool of lanes works out, whichever lane moves next and in whatever order work settles.
Positions are started one after the other, each once; what was started is in flight or has settled,
and a value that was noted is that of its position. When all lanes have ended and no work failed,
the values are therefore those of a sequential map. No run goes on for ever, and none gets stuck
before all lanes have ended.
-/
namespace RepoAtlas.Pool
variable {α β ε : Type} {n : Nat}

def Lane.inFlight? : Lane n β ε → Option (Fin n)
  | .working i => some i
  | .free | .settled .. | .ended => none

namespace State

def inFlight (s : State n β ε) : List (Fin n) := s.lanes.filterMap Lane.inFlight?

def Final (s : State n β ε) : Prop := ∀ lane ∈ s.lanes, lane = .ended

def result? (s : State n β ε) (i : Fin n) : Option β := s.results.get i

theorem result?_start (limit : Nat) (i : Fin n) : (start n limit : State n β ε).result? i = none :=
  Vector.getElem_replicate i.isLt

theorem result?_note (s : State n β ε) (i j : Fin n) (value : β) :
    (s.note i value).result? j = if i = j then some value else s.result? j := by
  have set : (s.note i value).result? j = if i.val = j.val then some value else s.result? j :=
    Vector.getElem_set i.isLt j.isLt
  simpa only [Fin.val_inj] using set

theorem getElem_results (s : State n β ε) {i : Nat} (h : i < n) : s.results[i] = s.result? ⟨i, h⟩ :=
  rfl

end State

inductive Step (work : Fin n → Except ε β) : State n β ε → State n β ε → Prop where
  | take {s : State n β ε} {l : Nat} (here : s.lanes[l]? = some .free) : Step work s (s.take l)
  | settle {s : State n β ε} {l : Nat} {i : Fin n} (here : s.lanes[l]? = some (.working i)) :
      Step work s (s.settle l i (work i))
  | resume {s : State n β ε} {l : Nat} {i : Fin n} {value : β}
      (here : s.lanes[l]? = some (.settled i (.ok value))) : Step work s ((s.note i value).take l)
  | fail {s : State n β ε} {l : Nat} {i : Fin n} {error : ε}
      (here : s.lanes[l]? = some (.settled i (.error error))) : Step work s (s.fail l error)

abbrev Run (work : Fin n → Except ε β) : State n β ε → State n β ε → Prop :=
  Relation.ReflTransGen (Step work)

/-! Putting one lane to something else. -/

section Replace
variable {lanes : List (Lane n β ε)} {l : Nat} {lane : Lane n β ε}

theorem lanes_split (h : lanes[l]? = some lane) :
    ∃ before after, lanes = before ++ lane :: after ∧
      ∀ other, lanes.set l other = before ++ other :: after := by
  obtain ⟨inside, rfl⟩ := List.getElem?_eq_some_iff.mp h
  refine ⟨lanes.take l, lanes.drop (l + 1), ?_, fun other => ?_⟩
  · rw [List.getElem_cons_drop, List.take_append_drop]
  · exact List.set_eq_take_append_cons_drop .. |>.trans (if_pos inside)

theorem mem_set_or_eq (h : lanes[l]? = some lane) (other : Lane n β ε) {x : Lane n β ε}
    (hx : x ∈ lanes) : x = lane ∨ x ∈ lanes.set l other := by
  obtain ⟨before, after, split, replaced⟩ := lanes_split h
  rw [split] at hx
  rw [replaced]
  rcases List.mem_append.mp hx with hx | hx
  · exact Or.inr (List.mem_append_left _ hx)
  · rcases List.mem_cons.mp hx with rfl | hx
    · exact Or.inl rfl
    · exact Or.inr (List.mem_append_right _ (List.mem_cons_of_mem _ hx))

/-- What was in flight on the lane is so no more, and what it is put to is. -/
theorem inFlight_set (h : lanes[l]? = some lane) (other : Lane n β ε) :
    (lane.inFlight?.toList ++ (lanes.set l other).filterMap Lane.inFlight?).Perm
      (other.inFlight?.toList ++ lanes.filterMap Lane.inFlight?) := by
  obtain ⟨before, after, split, replaced⟩ := lanes_split h
  have each : ∀ x : Lane n β ε, (before ++ x :: after).filterMap Lane.inFlight? =
      before.filterMap Lane.inFlight? ++
        (x.inFlight?.toList ++ after.filterMap Lane.inFlight?) := by
    intro x
    cases x <;> simp [Lane.inFlight?, List.filterMap_cons]
  rw [replaced, split, each, each]
  refine List.perm_iff_count.mpr fun i => ?_
  simp only [List.count_append]
  omega

end Replace

/-! What every step keeps. -/

structure Sound (work : Fin n → Except ε β) (s : State n β ε) : Prop where
  next_le : s.next ≤ n
  started_eq : s.started.map Fin.val = List.range s.next
  started_perm : s.started.Perm (s.inFlight ++ s.finished)
  settled_own : ∀ i outcome, Lane.settled i outcome ∈ s.lanes → i ∈ s.finished ∧ outcome = work i
  result_own : ∀ (i : Fin n) value, s.result? i = some value → work i = .ok value
  /-- Work that settled well is held by its lane until its value is noted. -/
  held : ∀ i ∈ s.finished, (∃ outcome, Lane.settled i outcome ∈ s.lanes) ∨ (s.result? i).isSome ∨
    ∃ error, work i = .error error
  failure_own : ∀ error, s.failure = some error → ∃ i ∈ s.finished, work i = .error error
  /-- A lane ends when nothing is left to take, or because its work failed. -/
  exhausted : Lane.ended ∈ s.lanes → s.next = n ∨ s.failure.isSome

section
variable {work : Fin n → Except ε β} {s t : State n β ε} {l : Nat} {i : Fin n} {lane : Lane n β ε}

theorem sound_start (limit : Nat) : Sound work (start n limit : State n β ε) where
  next_le := Nat.zero_le n
  started_eq := rfl
  started_perm := by simp [start, State.inFlight, List.filterMap_replicate, Lane.inFlight?]
  settled_own := by simp [start]
  result_own := by simp [State.result?_start]
  held := by simp [start]
  failure_own := by simp [start]
  exhausted := by simp [start]

/-- Nothing is lost if the lane turns to something else: it is not at work, and what it holds was
noted or has failed. -/
def Released (work : Fin n → Except ε β) (s : State n β ε) : Lane n β ε → Prop
  | .working _ => False
  | .settled i _ => (s.result? i).isSome ∨ ∃ error, work i = .error error
  | .free | .ended => True

theorem Released.not_inFlight (released : Released work s lane) : lane.inFlight? = none := by
  cases lane with
  | working i => exact released.elim
  | _ => rfl

theorem Released.held (released : Released work s lane) (h : Sound work s)
    (here : s.lanes[l]? = some lane) (other : Lane n β ε) :
    ∀ i ∈ s.finished, (∃ outcome, Lane.settled i outcome ∈ s.lanes.set l other) ∨
      (s.result? i).isSome ∨ ∃ error, work i = .error error := by
  intro i hi
  rcases h.held i hi with ⟨outcome, hm⟩ | kept
  · rcases mem_set_or_eq here other hm with rfl | hm
    · exact Or.inr released
    · exact Or.inl ⟨outcome, hm⟩
  · exact Or.inr kept

theorem Sound.endLane (h : Sound work s) (here : s.lanes[l]? = some lane)
    (released : Released work s lane) (why : s.next = n ∨ s.failure.isSome) :
    Sound work { s with lanes := s.lanes.set l .ended } where
  next_le := h.next_le
  started_eq := h.started_eq
  started_perm := by
    have flying := inFlight_set here .ended
    rw [released.not_inFlight] at flying
    exact h.started_perm.trans (flying.symm.append_right s.finished)
  settled_own := by
    intro i outcome hm
    rcases List.mem_or_eq_of_mem_set hm with hm | hm
    · exact h.settled_own i outcome hm
    · cases hm
  result_own := h.result_own
  held := released.held h here .ended
  failure_own := h.failure_own
  exhausted := fun _ => why

theorem Sound.take (h : Sound work s) (here : s.lanes[l]? = some lane)
    (released : Released work s lane) : Sound work (s.take l) := by
  rw [State.take]
  split
  case isFalse full =>
    have := h.next_le
    exact h.endLane here released (Or.inl (by omega))
  case isTrue room =>
    refine ⟨room, ?_, ?_, ?_, h.result_own, released.held h here _, h.failure_own, ?_⟩
    · rw [List.map_append, h.started_eq, List.range_succ]
      rfl
    · let taken : Fin n := ⟨s.next, room⟩
      have flying := inFlight_set here (.working taken)
      rw [released.not_inFlight] at flying
      have first : (s.started ++ [taken]).Perm (taken :: (s.inFlight ++ s.finished)) :=
        List.perm_append_comm.trans (h.started_perm.cons taken)
      exact first.trans (flying.symm.append_right s.finished)
    · intro i outcome hm
      rcases List.mem_or_eq_of_mem_set hm with hm | hm
      · exact h.settled_own i outcome hm
      · cases hm
    · intro hm
      rcases List.mem_or_eq_of_mem_set hm with hm | hm
      · exact (h.exhausted hm).imp_left fun full => absurd full (by omega)
      · cases hm

theorem Sound.settle (h : Sound work s) (here : s.lanes[l]? = some (.working i)) :
    Sound work (s.settle l i (work i)) where
  next_le := h.next_le
  started_eq := h.started_eq
  started_perm := by
    have flying := inFlight_set here (.settled i (work i))
    have moved : (s.inFlight ++ s.finished).Perm
        ((s.lanes.set l (.settled i (work i))).filterMap Lane.inFlight? ++
          (s.finished ++ [i])) := by
      refine (flying.symm.append_right s.finished).trans ?_
      refine List.perm_iff_count.mpr fun j => ?_
      simp only [List.count_append, Lane.inFlight?, Option.toList_some]
      omega
    exact h.started_perm.trans moved
  settled_own := by
    intro j outcome hm
    rcases List.mem_or_eq_of_mem_set hm with hm | hm
    · obtain ⟨hj, own⟩ := h.settled_own j outcome hm
      exact ⟨List.mem_append_left _ hj, own⟩
    · cases hm
      exact ⟨List.mem_append_right _ (List.mem_singleton_self i), rfl⟩
  result_own := h.result_own
  held := by
    intro j hj
    rcases List.mem_append.mp hj with hj | hj
    · rcases h.held j hj with ⟨outcome, hm⟩ | kept
      · rcases mem_set_or_eq here (.settled i (work i)) hm with hm | hm
        · cases hm
        · exact Or.inl ⟨outcome, hm⟩
      · exact Or.inr kept
    · obtain rfl := List.mem_singleton.mp hj
      have inside := (List.getElem?_eq_some_iff.mp here).1
      exact Or.inl ⟨work j, List.mem_set inside (.settled j (work j))⟩
  failure_own := by
    intro error he
    obtain ⟨j, hj, failed⟩ := h.failure_own error he
    exact ⟨j, List.mem_append_left _ hj, failed⟩
  exhausted := by
    intro hm
    rcases List.mem_or_eq_of_mem_set hm with hm | hm
    · exact h.exhausted hm
    · cases hm

theorem Sound.note {value : β} (h : Sound work s) (hm : Lane.settled i (.ok value) ∈ s.lanes) :
    Sound work (s.note i value) := by
  have own := (h.settled_own i _ hm).2
  refine ⟨h.next_le, h.started_eq, h.started_perm, h.settled_own, ?_, ?_, h.failure_own,
    h.exhausted⟩
  · intro j v hv
    rw [State.result?_note] at hv
    split at hv
    · rename_i same
      rw [← same, ← own, Option.some.inj hv]
    · exact h.result_own j v hv
  · intro j hj
    refine (h.held j hj).imp_right (Or.imp_left fun noted => ?_)
    rw [State.result?_note]
    split
    · rfl
    · exact noted

theorem Sound.fail {error : ε} (h : Sound work s)
    (here : s.lanes[l]? = some (.settled i (.error error))) : Sound work (s.fail l error) := by
  obtain ⟨hi, own⟩ := h.settled_own i _ (List.mem_of_getElem? here)
  have failed : Sound work { s with failure := s.failure.or (some error) } := by
    refine ⟨h.next_le, h.started_eq, h.started_perm, h.settled_own, h.result_own, h.held, ?_, ?_⟩
    · intro e he
      rcases Option.or_eq_some_iff.mp he with he | ⟨_, he⟩
      · exact h.failure_own e he
      · cases he
        exact ⟨i, hi, own.symm⟩
    · exact fun _ => Or.inr (by simp)
  exact failed.endLane here (Or.inr ⟨error, own.symm⟩) (Or.inr (by simp))

theorem Sound.step (h : Sound work s) (step : Step work s t) : Sound work t := by
  cases step with
  | take here => exact h.take here trivial
  | settle here => exact h.settle here
  | @resume l i value here =>
    have noted := h.note (List.mem_of_getElem? here)
    exact noted.take here (Or.inl (by simp [State.result?_note]))
  | fail here => exact h.fail here

theorem Sound.run (h : Sound work s) (run : Run work s t) : Sound work t := by
  induction run with
  | refl => exact h
  | tail _ step ih => exact ih.step step

theorem length_lanes (run : Run work s t) : t.lanes.length = s.lanes.length := by
  induction run with
  | refl => rfl
  | tail _ step ih =>
    rw [← ih]
    cases step with
    | settle | fail => exact List.length_set ..
    | take | resume =>
      rw [State.take]
      split <;> exact List.length_set ..

/-! Every step uses up one of the steps ahead, and until all lanes have ended there is one. -/

def Lane.ahead : Lane n β ε → Nat
  | .working _ => 2
  | .free | .settled .. => 1
  | .ended => 0

def stepsAhead : List (Lane n β ε) → Nat
  | [] => 0
  | lane :: lanes => lane.ahead + stepsAhead lanes

def State.ahead (s : State n β ε) : Nat := 2 * (n - s.next) + stepsAhead s.lanes

theorem stepsAhead_middle (before after : List (Lane n β ε)) (lane : Lane n β ε) :
    stepsAhead (before ++ lane :: after) = lane.ahead + stepsAhead (before ++ after) := by
  induction before with
  | nil => rfl
  | cons x before ih =>
    simp only [List.cons_append, stepsAhead, ih]
    omega

theorem stepsAhead_set {lanes : List (Lane n β ε)} (here : lanes[l]? = some lane)
    (other : Lane n β ε) :
    stepsAhead (lanes.set l other) + lane.ahead = stepsAhead lanes + other.ahead := by
  obtain ⟨before, after, split, replaced⟩ := lanes_split here
  rw [replaced, split, stepsAhead_middle, stepsAhead_middle]
  omega

theorem ahead_take (here : s.lanes[l]? = some lane) (free : lane.ahead = 1) :
    (s.take l).ahead + 1 = s.ahead := by
  rw [State.take]
  split
  case isTrue room =>
    have moved := stepsAhead_set here (.working ⟨s.next, room⟩)
    rw [free, Lane.ahead] at moved
    simp only [State.ahead]
    omega
  case isFalse full =>
    have moved := stepsAhead_set here .ended
    rw [free, Lane.ahead] at moved
    simp only [State.ahead]
    omega

theorem ahead_step (step : Step work s t) : t.ahead + 1 = s.ahead := by
  cases step with
  | take here => exact ahead_take here rfl
  | @resume l i value here => exact ahead_take (s := s.note i value) here rfl
  | @settle l i here =>
    have moved := stepsAhead_set here (.settled i (work i))
    simp only [Lane.ahead] at moved
    simp only [State.ahead, State.settle]
    omega
  | fail here =>
    have moved := stepsAhead_set here .ended
    simp only [Lane.ahead] at moved
    simp only [State.ahead, State.fail]
    omega

theorem step_advance (work : Fin n → Except ε β) (here : s.lanes[l]? = some lane)
    (active : lane ≠ .ended) : Step work s (s.advance work l) := by
  rw [State.advance, here]
  cases lane with
  | free => exact .take here
  | working i => exact .settle here
  | settled i outcome =>
    cases outcome with
    | ok value => exact .resume here
    | error e => exact .fail here
  | ended => exact absurd rfl active

/-- Lanes may take turns in any order. -/
theorem run_schedule (work : Fin n → Except ε β) (schedule : List Nat) (s : State n β ε) :
    Run work s (schedule.foldl (State.advance work) s) := by
  induction schedule generalizing s with
  | nil => exact .refl
  | cons l schedule ih =>
    by_cases active : ∃ lane, s.lanes[l]? = some lane ∧ lane ≠ .ended
    · obtain ⟨lane, here, active⟩ := active
      exact .head (step_advance work here active) (ih _)
    · have still : s.advance work l = s := by
        rw [State.advance]
        split <;> simp_all
      rw [List.foldl_cons, still]
      exact ih s

theorem step_of_turn (work : Fin n → Except ε β) (h : s.turn = some l) :
    Step work s (s.advance work l) := by
  rcases Option.or_eq_some_iff.mp h with h | ⟨_, h⟩
  · obtain ⟨inside, going, _⟩ := List.findIdx?_eq_some_iff_getElem.mp h
    refine step_advance work (List.getElem?_eq_getElem inside) fun ended => ?_
    rw [ended] at going
    cases going
  · obtain ⟨inside, busy, _⟩ := List.findIdx?_eq_some_iff_getElem.mp h
    refine step_advance work (List.getElem?_eq_getElem inside) fun ended => ?_
    rw [ended] at busy
    cases busy

theorem final_of_no_turn (h : s.turn = none) : s.Final := by
  intro lane hl
  obtain ⟨going, busy⟩ := Option.or_eq_none_iff.mp h
  have stuck := List.findIdx?_eq_none_iff.mp going lane hl
  have idle := List.findIdx?_eq_none_iff.mp busy lane hl
  cases lane with
  | ended => rfl
  | free | settled => simp [Lane.canGoOn] at stuck
  | working => simp [Lane.isWorking] at idle

theorem drain_run (work : Fin n → Except ε β) (k : Nat) (s : State n β ε) :
    Run work s (drain work k s) := by
  induction k generalizing s with
  | zero => exact .refl
  | succ k ih =>
    rw [drain]
    split
    · rename_i l hl
      exact .head (step_of_turn work hl) (ih _)
    · exact .refl

theorem drain_final (work : Fin n → Except ε β) {k : Nat} (bound : s.ahead ≤ k) :
    (drain work k s).Final := by
  induction k generalizing s with
  | zero =>
    cases h : s.turn with
    | none => exact final_of_no_turn h
    | some l =>
      have := ahead_step (step_of_turn work h)
      omega
  | succ k ih =>
    rw [drain]
    split
    · rename_i l hl
      have := ahead_step (step_of_turn work hl)
      exact ih (by omega)
    · rename_i hl
      exact final_of_no_turn hl

/-! What the pool comes to. -/

theorem Sound.started_lt (h : Sound work s) : s.started.Pairwise (· < ·) := by
  have ascending : (s.started.map Fin.val).Pairwise (· < ·) := h.started_eq ▸ List.pairwise_lt_range
  exact (List.pairwise_map (f := Fin.val)).mp ascending

theorem Sound.started_nodup (h : Sound work s) : s.started.Nodup :=
  h.started_lt.imp Fin.ne_of_lt

/-- If all work that was started settles well, then nothing is left out and every value is noted. -/
theorem Sound.complete (h : Sound work s) (lanes : n ≠ 0 → s.lanes ≠ []) (final : s.Final)
    (fulfilled : ∀ i ∈ s.started, ∃ value, work i = .ok value) :
    s.failure = none ∧ (∀ i, i ∈ s.started) ∧ ∀ i : Fin n, (s.result? i).map Except.ok =
      some (work i) := by
  have calm : s.failure = none := by
    cases he : s.failure with
    | none => rfl
    | some e =>
      obtain ⟨i, hi, failed⟩ := h.failure_own e he
      obtain ⟨value, ok⟩ := fulfilled i (h.started_perm.mem_iff.mpr (List.mem_append_right _ hi))
      rw [ok] at failed
      cases failed
  have full : s.next = n := by
    by_cases empty : n = 0
    · have := h.next_le
      omega
    · obtain ⟨lane, hl⟩ := List.exists_mem_of_ne_nil _ (lanes empty)
      have ended := final lane hl
      exact (h.exhausted (ended ▸ hl)).resolve_right (by simp [calm])
  have landed : s.inFlight = [] := by
    refine List.filterMap_eq_nil_iff.mpr fun lane hl => ?_
    rw [final lane hl]
    rfl
  have all : ∀ i, i ∈ s.started := by
    intro i
    have hi : i.val ∈ s.started.map Fin.val := by
      rw [h.started_eq, full]
      exact List.mem_range.mpr i.isLt
    obtain ⟨j, hj, same⟩ := List.mem_map.mp hi
    exact Fin.ext same ▸ hj
  refine ⟨calm, all, fun i => ?_⟩
  have hi : i ∈ s.finished := by
    have := h.started_perm.mem_iff.mp (all i)
    rwa [landed, List.nil_append] at this
  rcases h.held i hi with ⟨outcome, hm⟩ | noted | ⟨e, failed⟩
  · cases final _ hm
  · obtain ⟨value, hv⟩ := Option.isSome_iff_exists.mp noted
    rw [hv, h.result_own i value hv]
    rfl
  · obtain ⟨value, ok⟩ := fulfilled i (all i)
    rw [ok] at failed
    cases failed

theorem outcome_of_results (calm : s.failure = none)
    (noted : ∀ i : Fin n, (s.result? i).map Except.ok = some (work i)) :
    ∃ values, s.outcome = .ok values ∧ values.map Except.ok = List.ofFn work := by
  refine ⟨s.results.toList.filterMap id, by rw [State.outcome, calm], ?_⟩
  have each : s.results.toList.map (Option.map Except.ok) = (List.ofFn work).map some := by
    apply List.ext_getElem
    · simp
    · intro i hi _
      have inside : i < n := by simpa using hi
      simpa [State.getElem_results] using noted ⟨i, inside⟩
  have kept := congrArg (List.filterMap id) each
  rw [List.filterMap_map, List.filterMap_map] at kept
  rw [List.map_filterMap]
  simpa [Function.comp_def] using kept

theorem ahead_start (n limit : Nat) : (start n limit : State n β ε).ahead ≤ 3 * n := by
  have free : ∀ k, stepsAhead (List.replicate k (.free : Lane n β ε)) = k := by
    intro k
    induction k with
    | zero => rfl
    | succ k ih =>
      rw [List.replicate_succ, stepsAhead, ih, Lane.ahead]
      omega
  simp only [State.ahead, start, free]
  omega

theorem lanes_ne_nil {limit : Nat} (allowed : 0 < limit) (run : Run work (start n limit) s)
    (nonempty : n ≠ 0) : s.lanes ≠ [] := by
  have length := length_lanes run
  simp only [start, List.length_replicate] at length
  exact List.ne_nil_of_length_pos (by omega)

end

theorem map_of_pos {limit : Nat} (allowed : 0 < limit) (f : α → β) (xs : List α) :
    map limit f xs = xs.map f := by
  let work : Fin xs.length → Except Empty β := fun i => .ok (f xs[i])
  have run := drain_run work (3 * xs.length) (start xs.length limit)
  have final := drain_final work (ahead_start xs.length limit)
  obtain ⟨calm, _, noted⟩ := ((sound_start limit).run run).complete (lanes_ne_nil allowed run) final
    fun i _ => ⟨f xs[i], rfl⟩
  obtain ⟨values, outcome, each⟩ := outcome_of_results calm noted
  have same : values.map Except.ok = (xs.map f).map (Except.ok : β → Except Empty β) := by
    rw [each]
    exact List.ext_getElem (by simp) (by simp [work])
  have mapped : Pool.run limit (fun x _ => (.ok (f x) : Except Empty β)) xs = .ok values := outcome
  rw [map, mapped]
  exact List.map_injective_iff.mpr (fun _ _ => Except.ok.inj) same

/-- Without lanes nothing is worked on. -/
theorem map_zero (f : α → β) (xs : List α) : map 0 f xs = [] := by
  have idle : ∀ k, drain (fun i => (.ok (f xs[i]) : Except Empty β)) k (start xs.length 0) =
      start xs.length 0 := by
    intro k
    cases k with
    | zero => rfl
    | succ k => simp [drain, start, State.turn]
  have outcome : run 0 (fun x _ => (.ok (f x) : Except Empty β)) xs = .ok [] := by
    rw [run, idle]
    simp [start, State.outcome]
  rw [map, outcome]

theorem map_eq_map (limit : Nat) (f : α → β) (xs : List α) :
    map limit f xs = (if limit = 0 then [] else xs).map f := by
  split
  · rename_i unmanned
    rw [unmanned, map_zero, List.map_nil]
  · exact map_of_pos (by omega) f xs

/-- Whatever the lanes do next and however long work takes: no more work is in flight than there are
lanes for, positions are started in order and each at most once, and all lanes can still end. Once
they have, every position was started and the values are those of the worker in list order, as long
as no work failed. -/
theorem every_run_maps_in_order (worker : α → Nat → Except ε β) (items : List α) (limit : Nat)
    (allowed : 0 < limit) (s : State items.length β ε)
    (run : Run (fun i => worker items[i] i) (start items.length limit) s) :
    s.inFlight.length ≤ min limit items.length ∧
      s.started.Perm (s.inFlight ++ s.finished) ∧
      (∀ i, s.started.count i ≤ 1) ∧ s.started.Pairwise (· < ·) ∧
      (∃ t, Run (fun i => worker items[i] i) s t ∧ t.Final) ∧
      (s.Final → (∀ i ∈ s.started, ∃ value, worker items[i] i = .ok value) →
        (∀ i, s.started.count i = 1) ∧
          (∀ i : Fin items.length, (s.result? i).map Except.ok = some (worker items[i] i)) ∧
          ∃ values, s.outcome = .ok values ∧
            values.map Except.ok = items.mapIdx fun i x => worker x i) := by
  have sound := (sound_start limit).run run
  have lanes : s.lanes.length = min limit items.length := by
    rw [length_lanes run]
    exact List.length_replicate ..
  refine ⟨?_, sound.started_perm, ?_, sound.started_lt, ?_, ?_⟩
  · exact lanes ▸ List.length_filterMap_le ..
  · exact List.nodup_iff_count_le_one.mp sound.started_nodup
  · exact ⟨_, drain_run _ s.ahead s, drain_final _ (Nat.le_refl _)⟩
  · intro final fulfilled
    obtain ⟨calm, all, noted⟩ := sound.complete (lanes_ne_nil allowed run) final fulfilled
    obtain ⟨values, outcome, each⟩ := outcome_of_results calm noted
    refine ⟨fun i => List.count_eq_one_of_mem sound.started_nodup (all i), noted, values, outcome,
      ?_⟩
    rw [each, List.mapIdx_eq_mapFinIdx, List.mapFinIdx_eq_ofFn]

def letters : List String := ["a", "b", "c"]

def tagged (x : String) (i : Nat) : Except String (String × Nat) := .ok (x, i)

def overtaken : State letters.length (String × Nat) String :=
  [0, 1, 1, 1, 1, 1, 0, 0].foldl (State.advance fun i => tagged letters[i] i)
    (start letters.length 2)

theorem overtaken_maps_in_order :
    Run (fun i => tagged letters[i] i) (start letters.length 2) overtaken ∧ overtaken.Final ∧
      overtaken.finished.map Fin.val = [1, 2, 0] ∧ overtaken.inFlight.length ≤ 2 ∧
      (∀ i, overtaken.started.count i = 1) ∧
      ∃ values, overtaken.outcome = .ok values ∧
        values.map Except.ok = letters.mapIdx fun i x => tagged x i := by
  have run : Run (fun i => tagged letters[i] i) (start letters.length 2) overtaken :=
    run_schedule _ _ _
  have final : overtaken.Final := by
    have lanes : overtaken.lanes = [.ended, .ended] := rfl
    simp [State.Final, lanes]
  obtain ⟨flying, _, _, _, _, complete⟩ :=
    every_run_maps_in_order tagged letters 2 (by decide) overtaken run
  obtain ⟨once, _, mapped⟩ := complete final fun i _ => ⟨_, rfl⟩
  exact ⟨run, final, rfl, flying, once, mapped⟩

end RepoAtlas.Pool
