/-
Systems whose parties can crash.

Every event of a system belongs to a party. A step may crash its party instead of changing the state, and the events of a
party that has crashed do nothing. The state is shared, so nothing else changes when a party crashes.

- `Crashable.run_state`: a run with crashes ends where a run without them ends that makes some of the events: each party
  its own in their order, up to where it crashed (`Made`).
- `Crashable.crashed_iff`: a party has crashed iff one of its events crashes it in the state before that event.
-/
import Mathlib.Tactic

namespace LongFi.Core

variable {σ ε ι : Type}

/-- the state of the system, and which parties have crashed -/
structure Crashable (σ ι : Type) where
  state : σ
  crashed : ι → Bool

namespace Crashable

section

variable [DecidableEq ι] (party : ε → ι) (next : σ → ε → Option σ)

/-- one event; `none` is a crash -/
def step (m : Crashable σ ι) (ev : ε) : Crashable σ ι :=
  if m.crashed (party ev) then m
  else
    match next m.state ev with
    | some s => { m with state := s }
    | none => { m with crashed := Function.update m.crashed (party ev) true }

def run (m : Crashable σ ι) (es : List ε) : Crashable σ ι := es.foldl (step party next) m

/-- nobody has crashed -/
def start (s : σ) : Crashable σ ι := ⟨s, fun _ => false⟩

theorem run_concat (m : Crashable σ ι) (es : List ε) (ev : ε) :
    run party next m (es ++ [ev]) = step party next (run party next m es) ev := by
  rw [run, List.foldl_append]
  rfl

variable {party next}

theorem step_crashed {m : Crashable σ ι} {ev : ε} (h : m.crashed (party ev) = true) : step party next m ev = m := if_pos h

theorem step_some {m : Crashable σ ι} {ev : ε} (h : m.crashed (party ev) = false) {s : σ} (hs : next m.state ev = some s) :
    step party next m ev = { m with state := s } := by
  simp only [step, h, Bool.false_eq_true, if_false, hs]

theorem step_none {m : Crashable σ ι} {ev : ε} (h : m.crashed (party ev) = false) (hs : next m.state ev = none) :
    step party next m ev = { m with crashed := Function.update m.crashed (party ev) true } := by
  simp only [step, h, Bool.false_eq_true, if_false, hs]

end

/-! ## What is made of a run -/

section

variable [DecidableEq ι]

/-- the events of party i -/
def own (party : ε → ι) (i : ι) (es : List ε) : List ε := es.filter fun ev => party ev = i

/-- of the events es, done were made: each party made its own in their order, and all of them if it has not crashed -/
structure Made (party : ε → ι) (crashed : ι → Bool) (es done : List ε) : Prop where
  sublist : done.Sublist es
  own_prefix : ∀ i, own party i done <+: own party i es
  own_all : ∀ i, crashed i = false → own party i done = own party i es

variable {party : ε → ι} {crashed : ι → Bool} {es done : List ε}

theorem own_concat_self (es : List ε) (ev : ε) : own party (party ev) (es ++ [ev]) = own party (party ev) es ++ [ev] := by
  simp [own]

theorem own_concat_other {i : ι} {ev : ε} (h : party ev ≠ i) (es : List ε) : own party i (es ++ [ev]) = own party i es := by
  simp [own, h]

theorem own_prefix_concat (i : ι) (es : List ε) (ev : ε) : own party i es <+: own party i (es ++ [ev]) := by
  rw [own, own, List.filter_append]
  exact List.prefix_append _ _

theorem Made.nil : Made party crashed [] [] := ⟨.slnil, fun _ => List.prefix_rfl, fun _ _ => rfl⟩

/-- an event of a party that has not crashed is made -/
theorem Made.make (h : Made party crashed es done) {ev : ε} (hev : crashed (party ev) = false) :
    Made party crashed (es ++ [ev]) (done ++ [ev]) := by
  have hown (i : ι) (hi : party ev ≠ i) (l : List ε) : own party i (l ++ [ev]) = own party i l := own_concat_other hi l
  refine ⟨h.sublist.append_right [ev], fun i => ?_, fun i hi => ?_⟩
  · by_cases hparty : party ev = i
    · subst hparty
      rw [own_concat_self, own_concat_self, h.own_all _ hev]
    · rw [hown i hparty, hown i hparty]
      exact h.own_prefix i
  · by_cases hparty : party ev = i
    · subst hparty
      rw [own_concat_self, own_concat_self, h.own_all _ hev]
    · rw [hown i hparty, hown i hparty]
      exact h.own_all i hi

/-- an event of a party that has crashed, or crashes now, is not made -/
theorem Made.skip (h : Made party crashed es done) {ev : ε} {crashed' : ι → Bool} (hev : crashed' (party ev) = true)
    (hother : ∀ i, party ev ≠ i → crashed' i = crashed i) : Made party crashed' (es ++ [ev]) done := by
  refine ⟨h.sublist.trans (List.sublist_append_left es [ev]), fun i => ?_, fun i hi => ?_⟩
  · exact (h.own_prefix i).trans (own_prefix_concat i es ev)
  · have hparty : party ev ≠ i := by
      rintro rfl
      rw [hev] at hi
      cases hi
    rw [own_concat_other hparty]
    exact h.own_all i (hother i hparty ▸ hi)

/-- **A run with crashes is a run without**, on the events that were made. -/
theorem run_state {next : σ → ε → Option σ} {total : σ → ε → σ} (hnext : ∀ s ev s', next s ev = some s' → s' = total s ev)
    (s : σ) (es : List ε) : ∃ done, Made party (run party next (start s) es).crashed es done ∧
      (run party next (start s) es).state = done.foldl total s := by
  induction es using List.reverseRecOn with
  | nil => exact ⟨[], .nil, rfl⟩
  | append_singleton es ev ih =>
    obtain ⟨done, hmade, hstate⟩ := ih
    rw [run_concat]
    cases hcrashed : (run party next (start s) es).crashed (party ev) with
    | true =>
      rw [step_crashed hcrashed]
      exact ⟨done, hmade.skip hcrashed fun _ _ => rfl, hstate⟩
    | false =>
      cases hs : next (run party next (start s) es).state ev with
      | some s' =>
        rw [step_some hcrashed hs]
        refine ⟨done ++ [ev], hmade.make hcrashed, ?_⟩
        rw [hnext _ ev s' hs, hstate, List.foldl_append]
        rfl
      | none =>
        rw [step_none hcrashed hs]
        refine ⟨done, hmade.skip (Function.update_self _ _ _) fun i hi => ?_, hstate⟩
        exact Function.update_of_ne hi.symm _ _

/-- what one event does to who has crashed -/
theorem step_crashed_iff (next : σ → ε → Option σ) (m : Crashable σ ι) (ev : ε) (i : ι) :
    (step party next m ev).crashed i = true ↔ m.crashed i = true ∨ party ev = i ∧ next m.state ev = none := by
  cases hcrashed : m.crashed (party ev) with
  | true =>
    rw [step_crashed hcrashed]
    refine ⟨Or.inl, ?_⟩
    rintro (h | ⟨rfl, -⟩)
    · exact h
    · exact hcrashed
  | false =>
    cases hs : next m.state ev with
    | some s =>
      rw [step_some hcrashed hs]
      simp
    | none =>
      rw [step_none hcrashed hs]
      by_cases hi : party ev = i
      · subst hi
        simp
      · simp [Function.update_of_ne (Ne.symm hi), hi]

theorem crashed_iff (next : σ → ε → Option σ) (s : σ) (es : List ε) (i : ι) :
    (run party next (start s) es).crashed i = true ↔
      ∃ before ev, before ++ [ev] <+: es ∧ party ev = i ∧ next (run party next (start s) before).state ev = none := by
  induction es using List.reverseRecOn with
  | nil =>
    refine ⟨fun h => (by cases h), ?_⟩
    rintro ⟨before, ev, hpre, -, -⟩
    simp at hpre
  | append_singleton es ev ih =>
    rw [run_concat, step_crashed_iff, ih]
    constructor
    · rintro (⟨before, ev', hpre, hrest⟩ | hnow)
      · exact ⟨before, ev', hpre.trans (List.prefix_append es [ev]), hrest⟩
      · exact ⟨es, ev, List.prefix_rfl, hnow⟩
    · rintro ⟨before, ev', hpre, hrest⟩
      rcases List.prefix_concat_iff.1 hpre with heq | hpre
      · obtain ⟨rfl, hev⟩ := List.append_inj' heq rfl
        obtain rfl := List.singleton_inj.1 hev
        exact Or.inr hrest
      · exact Or.inl ⟨before, ev', hpre, hrest⟩

end

end Crashable

end LongFi.Core
