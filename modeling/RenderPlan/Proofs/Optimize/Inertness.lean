/-
# RenderPlan.Proofs.Optimize.Inertness -- what bits do that name no category

An optimization and the one with truncated masks go the same way until no category is pending
(`Sweep.Path.truncate_or_drained`). There the truncated one is complete. The other one is complete,
too, if no bit is left in its set of pending categories, and the set tells whether any call has ever
left a bit unsettled that names no category (`Situation.Tells`). If one has, the sweep coasts: it
passes over categories, calls no rule, and runs out of its budget (`Situation.Coasts`).

So such bits are inert in all but one respect, and `Setup.optimize_truncate` says in which.
-/
import RenderPlan.Proofs.Optimize.Truncation
import Mathlib.Data.List.Chain

namespace RenderPlan

variable {σ : Type}

/-! ## Calls that leave only categories unsettled -/

namespace Journal

variable {j : Journal} {e : Entry} {r : CallRecord}

/-- No call left a bit unsettled that names no category. -/
def Strict (j : Journal) : Prop := ∀ r ∈ j.calls, r.reported.isStrict = true

theorem strict_call : Strict (.call r :: j) ↔ j.Strict ∧ r.reported.isStrict = true := by
  unfold Strict
  rw [calls_cons, List.forall_mem_append]
  simp [Entry.call?]

theorem strict_other (h : e.call? = none) : Strict (e :: j) ↔ j.Strict := by
  unfold Strict
  rw [calls_cons, h]
  simp

theorem calls_map_truncate : calls (j.map Entry.truncate) = j.calls.map CallRecord.truncate := by
  induction j with
  | nil => rfl
  | cons e j ih =>
      rw [List.map_cons, calls_cons, calls_cons, ih, List.map_append]
      cases e <;> rfl

end Journal

namespace Visit

variable {maxSteps : Nat} {rules : List (Member σ)} {w₀ w : Workspace σ} {v₀ v : TaskView}
  {copied : Bool}

/-- A visit tells by the mask it reports whether its calls left only categories unsettled. -/
theorem Course.strict_iff (h : Course maxSteps rules w₀ v₀ copied v w)
    (hv₀ : v₀.affects.isStrict = true) :
    w.journal.Strict ↔ w₀.journal.Strict ∧ v.affects.isStrict = true := by
  induction h with
  | enter => exact ⟨fun hw => ⟨hw, hv₀⟩, And.left⟩
  | @call _ _ _ v w m _ _ _ _ ih =>
      have hunion : (viewAfter m v w).affects.isStrict = true ↔
          v.affects.isStrict = true ∧ (record m v w).reported.isStrict = true :=
        Mask.isStrict_union_iff
      rw [hunion, ← and_assoc, ← ih hv₀]
      exact Journal.strict_call
  | @keep _ _ _ v _ task slot child _ seen w' _ _ _ _ ih ihBelow
  | @splice _ _ _ v _ task slot child _ seen w' _ _ _ _ _ _ _ ih ihBelow =>
      have hunion : (v.affects ∪ seen.affects).isStrict = true ↔
          v.affects.isStrict = true ∧ seen.affects.isStrict = true := Mask.isStrict_union_iff
      have hvisit : Journal.Strict (slotEntry task slot child seen :: w'.journal) ↔
          w'.journal.Strict := Journal.strict_other rfl
      show _ ↔ _ ∧ (v.affects ∪ seen.affects).isStrict = true
      rw [hunion, ← and_assoc, ← ih hv₀, ← ihBelow Mask.isStrict_empty]
      exact hvisit
  | spend _ _ ih => exact ih hv₀

end Visit

/-- The pending set tells whether all calls so far left only categories unsettled. -/
structure Situation.Tells (a : Situation σ) : Prop where
  pending : a.sweep.pending.isStrict = true ↔ a.work.journal.Strict
  affected : a.sweep.pending.isStrict = true → a.sweep.affected.isStrict = true

theorem Situation.Tells.report {phase phase' : Phase σ} {s : Sweep} {w w' : Workspace σ} {m : Mask}
    (h : Situation.Tells ⟨phase, s, w⟩)
    (hw : w'.journal.Strict ↔ w.journal.Strict ∧ m.isStrict = true) :
    Situation.Tells ⟨phase', s.report m, w'⟩ where
  pending := by
    show (s.pending ∪ (s.affected ∪ m)).isStrict = true ↔ w'.journal.Strict
    rw [Mask.isStrict_union_iff, Mask.isStrict_union_iff, hw, ← h.pending]
    exact ⟨fun ⟨hp, _, hm⟩ => ⟨hp, hm⟩, fun ⟨hp, hm⟩ => ⟨hp, h.affected hp, hm⟩⟩
  affected hstrict := (Mask.isStrict_union_iff.mp hstrict).2

namespace Sweep

variable {setup : Setup σ} {a b d : Situation σ}

theorem Move.tells (h : Move setup a b) (hb : b.phase ≠ .stopped) (ha : a.Tells) : b.Tells := by
  -- the visit of an entry begins with nothing reported
  have hentry : ∀ {step : Step σ} {before after : List (Option TaskId)} {task : TaskId}
      {seen : TaskView} {w w' : Workspace σ},
      entryOutcome setup step before after task w = (.ok seen, w') →
      ((w'.note (listEntry before.length task seen)).journal.Strict ↔
        w.journal.Strict ∧ seen.affects.isStrict = true) := by
    intro step before after task seen w w' houtcome
    obtain ⟨copied, hcourse⟩ := (Visit.ensures_visit _ _ _ _ _ _).of_outcome houtcome
    rw [← hcourse.strict_iff Mask.isStrict_empty]
    exact Journal.strict_other rfl
  cases h with
  | spend | skip | descend | finishList | hole | finish => exact ⟨ha.pending, ha.affected⟩
  | rewind | advance => exact ⟨ha.pending, fun _ => Mask.isStrict_empty⟩
  | restart | cutList | cut =>
      exact ⟨ha.pending.trans (Journal.strict_other rfl).symm, fun _ => Mask.isStrict_empty⟩
  | begin => exact ⟨ha.pending.trans (Journal.strict_other rfl).symm, ha.affected⟩
  | beginLogged =>
      refine ⟨ha.pending.trans (Iff.symm ?_), ha.affected⟩
      exact (Journal.strict_other (by rfl)).trans (Journal.strict_other (by rfl))
  | @settle s w c =>
      refine ⟨?_, fun _ => Mask.isStrict_empty⟩
      show ((s.pending \ c.mask) ∪ s.affected).isStrict = true ↔ _
      rw [Mask.isStrict_union_iff, Mask.isStrict_sdiff_iff (Mask.isStrict_mask c),
        and_iff_left_of_imp ha.affected]
      exact ha.pending.trans (Journal.strict_other rfl).symm
  | @call s w step m rest =>
      have hlist : Situation.Tells ⟨.listing step rest, withList step.gate m s w, w⟩ :=
        ⟨ha.pending, ha.affected⟩
      exact hlist.report Journal.strict_call
  | visit _ houtcome | revisit _ houtcome => exact ha.report (hentry houtcome)
  | exhausted | unlogged | raise | unrepeated | abort => exact absurd rfl hb

theorem tells_start (user : σ) (graph : Graph) (list : List (Option TaskId)) :
    (Setup.start user graph list).Tells where
  pending := iff_of_true Mask.isStrict_full nofun
  affected _ := Mask.isStrict_empty

theorem Path.tells (h : Path setup a b) (hb : b.phase ≠ .stopped) (ha : a.Tells) : b.Tells := by
  induction h with
  | refl => exact ha
  | tail _ hmove ih => exact hmove.tells hb (ih hmove.phase_ne_stopped)

end Sweep

/-! ## Coasting -/

namespace Situation

/-- Where a sweep stands that found no category pending at `d`: it passes over categories, or it ran
out of the budget. -/
structure Coasts (d a : Situation σ) : Prop where
  user : a.work.user = d.work.user
  graph : a.work.graph = d.work.graph
  list : a.sweep.list = d.sweep.list
  calls : a.work.journal.calls = d.work.journal.calls
  goes : (a.phase = .between ∨ a.phase = .turning) ∧ a.sweep.pending = d.sweep.pending ∨
    a.phase = .stopped ∧ a.sweep.stopped = some .exhausted

end Situation

namespace Sweep

variable {setup : Setup σ} {a b d : Situation σ}

theorem Move.coasts (hdrained : d.Drained) (h : Move setup a b) (ha : d.Coasts a) : d.Coasts b := by
  obtain ⟨hphase, hsame⟩ := ha.goes.resolve_right fun hstop => h.phase_ne_stopped hstop.1
  have hnone : ∀ c, c ∉ a.sweep.pending := fun c hc =>
    Mask.notMem_of_isEmpty hdrained.pending (Mask.mem_truncate.mpr (hsame ▸ hc))
  cases h with
  | spend => exact ⟨ha.user, ha.graph, ha.list, ha.calls, Or.inl ⟨Or.inr rfl, hsame⟩⟩
  | exhausted =>
      refine ⟨ha.user, ha.graph, ha.list, ?_, Or.inr ⟨rfl, rfl⟩⟩
      exact (Journal.calls_cons.trans (List.append_nil _)).trans ha.calls
  | rewind | advance => exact ⟨ha.user, ha.graph, ha.list, ha.calls, Or.inl ⟨Or.inl rfl, hsame⟩⟩
  | settle _ hpending | restart _ hpending | begin _ hpending | beginLogged _ hpending
  | unlogged _ hpending => exact absurd hpending (hnone _)
  | call | raise | skip | descend | finishList | cutList | hole | visit | revisit | unrepeated
  | abort | finish | cut => rcases hphase with hphase | hphase <;> cases hphase

/-- **A sweep with no category pending coasts** from there on. -/
theorem Path.coasts (hdrained : d.Drained) (h : Path setup d a) : d.Coasts a := by
  induction h with
  | refl => exact ⟨rfl, rfl, rfl, rfl, Or.inl ⟨Or.inl hdrained.phase, rfl⟩⟩
  | tail _ hmove ih => exact hmove.coasts hdrained ih

/-- The paths with and without the other bits lie side by side until no category is pending. -/
theorem Path.truncate_or_drained
    (hblind : ∀ c, ∀ id ∈ setup.registry.rules c, (setup.rules id).Blind)
    (ha : a.Stands setup) (h : Path setup a b) :
    Path setup.truncate a.truncate b.truncate ∨ ∃ d, d.Drained ∧ Path setup a d ∧ Path setup d b ∧
      Path setup.truncate a.truncate d.truncate := by
  induction h with
  | refl => exact Or.inl .refl
  | @tail b c hpath hmove ih =>
      rcases ih with htruncated | ⟨d, hdrained, hbefore, hafter, htruncated⟩
      · by_cases hdrained : b.Drained
        · exact Or.inr ⟨b, hdrained, hpath, .single hmove, htruncated⟩
        · have hstands := (Path.invariant (I := fun _ => True) hpath ha trivial
            fun _ _ _ _ _ => trivial).1
          exact Or.inl (htruncated.tail (hmove.truncate hblind hstands hdrained))
      · exact Or.inr ⟨d, hdrained, hbefore, hafter.tail hmove, htruncated⟩

end Sweep

/-! ## Optimizations -/

namespace Setup

open Sweep

theorem truncate_start (user : σ) (graph : Graph) (list : List (Option TaskId)) :
    (start user graph list).truncate = start user graph list := by
  simp [start, Situation.truncate, Phase.truncate, Sweep.truncate, Sweep.start,
    Workspace.truncate, Mask.truncate_eq_self Mask.isStrict_full]

theorem remains_truncate (a : Situation σ) :
    a.truncate.remains = { a.remains with journal := a.remains.journal.map Entry.truncate } := by
  unfold Situation.remains
  rw [show a.truncate.sweep.stopped = a.sweep.stopped from rfl]
  cases a.sweep.stopped <;> rfl

theorem remains_work (a : Situation σ) : a.remains.user = a.work.user ∧
    a.remains.graph = a.work.graph ∧ a.remains.journal = a.work.journal := by
  unfold Situation.remains
  cases a.sweep.stopped <;> exact ⟨rfl, rfl, rfl⟩

/-- Where the optimization with truncated masks ends, and where the other one ends: at the same
place, or the other one where it has coasted to. -/
theorem exists_parting {setup : Setup σ}
    (hblind : ∀ c, ∀ id ∈ setup.registry.rules c, (setup.rules id).Blind)
    (user : σ) (graph : Graph) (list : List (Option TaskId)) :
    ∃ d b, Path setup (start user graph list) d ∧ Path setup d b ∧ b.Final ∧
      setup.optimize user graph list = b.remains ∧
      setup.truncate.optimize user graph list = d.truncate.remains ∧
      (d = b ∨ d.Drained ∧ d.sweep.pending.isEmpty = false) := by
  obtain ⟨b, hpath, hfinal, heq⟩ := exists_final setup user graph list
  rcases Path.truncate_or_drained hblind (stands_start setup user graph list) hpath with
    htruncated | ⟨d, hdrained, hbefore, hafter, htruncated⟩
  · rw [truncate_start] at htruncated
    refine ⟨b, b, hpath, .refl, hfinal, heq, optimize_of_path htruncated ?_, Or.inl rfl⟩
    rcases hfinal with hstopped | ⟨hbetween, hempty⟩
    · exact Or.inl (by rw [Situation.truncate, hstopped]; rfl)
    · refine Or.inr ⟨by rw [Situation.truncate, hbetween]; rfl, ?_⟩
      exact (congrArg Mask.isEmpty (Mask.truncate_eq_self (Mask.isStrict_of_isEmpty hempty))).trans
        hempty
  · rw [truncate_start] at htruncated
    have hend : d.truncate.Final :=
      Or.inr ⟨by rw [Situation.truncate, hdrained.phase]; rfl, hdrained.pending⟩
    refine ⟨d, b, hbefore, hafter, hfinal, heq, optimize_of_path htruncated hend, ?_⟩
    cases hempty : d.sweep.pending.isEmpty with
    | true => exact Or.inl (Path.eq_of_final hafter (Or.inr ⟨hdrained.phase, hempty⟩))
    | false => exact Or.inr ⟨hdrained, rfl⟩

/-- **Bits that name no category are inert, but for one thing.** Let the registered rules not look at
such bits, and compare an optimization with the one where all masks are truncated, in descriptors
and in what rules report. The graphs are the same at the end, and so is what the rules remember and,
up to truncation, every call in its turn.

The results and the lists are the same as well, with the same steps and restarts, if no call left
such a bit unsettled, or if the optimization with truncated masks is not completed. Else it is
completed with truncated masks, and without truncation it runs out of its budget, with the same
list, from which the holes are not taken out. -/
theorem optimize_truncate (setup : Setup σ)
    (hblind : ∀ c, ∀ id ∈ setup.registry.rules c, (setup.rules id).Blind)
    (user : σ) (graph : Graph) (list : List (Option TaskId)) :
    let o := setup.optimize user graph list
    let t := setup.truncate.optimize user graph list
    t.graph = o.graph ∧ t.user = o.user ∧
      t.journal.calls = o.journal.calls.map CallRecord.truncate ∧
      ((∀ r ∈ o.journal.calls, r.reported.isStrict = true) ∨ (∃ stop, t.result = .error stop) →
        t.result = o.result ∧ t.list = o.list) ∧
      ((∃ r ∈ o.journal.calls, r.reported.isStrict = false) → ∀ stats, t.result = .ok stats →
        o.result = .error .exhausted ∧ t.list = o.list.filter Option.isSome) := by
  intro o t
  obtain ⟨d, b, hbefore, hafter, hfinal, ho, ht, hparting⟩ :=
    exists_parting hblind user graph list
  have htells : ∀ {a}, Path setup (start user graph list) a → a.phase ≠ .stopped → a.Tells :=
    fun ha hphase => ha.tells hphase (tells_start user graph list)
  have hbegins := begins_start setup user graph list
  obtain ⟨huser, hgraph, hjournal⟩ := remains_work b
  obtain ⟨huser', hgraph', hjournal'⟩ := remains_work d
  rw [show o = b.remains from ho, show t = _ from ht.trans (remains_truncate d), huser, hgraph,
    hjournal]
  dsimp only
  rw [Journal.calls_map_truncate, huser', hgraph', hjournal']
  rcases hparting with rfl | ⟨hdrained, hmore⟩
  · -- both end here, and if nothing is pending all calls were strict
    refine ⟨rfl, rfl, rfl, fun _ => ⟨rfl, rfl⟩, ?_⟩
    rintro ⟨r, hr, hloose⟩ stats hstats
    have hphase : d.phase ≠ .stopped := by
      intro hstopped
      obtain ⟨stop, hstop⟩ := Option.isSome_iff_exists.mp
        ((Path.isSome_stopped_iff hbefore hbegins.stopped hbegins.phase).mpr hstopped)
      rw [Situation.remains, hstop] at hstats
      cases hstats
    have hempty := (hfinal.resolve_left hphase).2
    have hstrict := (htells hbefore hphase).pending.mp (Mask.isStrict_of_isEmpty hempty)
    rw [hstrict r hr] at hloose
    cases hloose
  · -- the other one coasts on from here
    have hphase : d.phase ≠ .stopped := by
      simp [hdrained.phase]
    have hloose : ¬ d.work.journal.Strict := by
      rw [← (htells hbefore hphase).pending]
      intro hstrict
      have hempty := hdrained.pending
      rw [Mask.truncate_eq_self hstrict, hmore] at hempty
      cases hempty
    have hgoes : d.sweep.stopped = none := hbegins.stopped_eq_none hbefore hphase
    have hcoasts := hafter.coasts hdrained
    have hstop : b.sweep.stopped = some .exhausted := by
      rcases hcoasts.goes with ⟨hphase, hsame⟩ | hstop
      · have hrunning : b.phase ≠ .stopped := by
          rcases hphase with hphase | hphase <;> simp [hphase]
        have hempty := (hfinal.resolve_left hrunning).2
        rw [hsame, hmore] at hempty
        cases hempty
      · exact hstop.2
    rw [Situation.remains, hgoes, Situation.remains, hstop, hcoasts.calls, hcoasts.user,
      hcoasts.graph]
    refine ⟨rfl, rfl, rfl, ?_, fun _ _ _ => ⟨rfl, ?_⟩⟩
    · rintro (hstrict | ⟨stop, hstop⟩)
      · exact absurd hstrict hloose
      · cases hstop
    · rw [hcoasts.list]

end Setup

/-! ### A stray bit

The rule reports a bit that names no category, once. No category is unsettled after that, but the bit
stays in the pending set, and the sweep goes on until its budget is used up. -/

/-- A rule that reports the eighth bit in its first call. -/
def Rule.straying : Rule Bool where
  name := "stray"
  descriptor := { Descriptor.ofCategory .common with forTask := true }
  runTask c := { call :=
    if c.user then c
    else { c with user := true, view := { c.view with affects := c.view.affects ∪ ⟨128⟩ } } }

theorem Rule.blind_straying : Rule.straying.Blind := by
  intro c
  dsimp only [Rule.straying]
  rw [show c.truncate.user = c.user from rfl]
  cases c.user <;>
    simp [Answered.map, TaskCall.truncate, TaskView.truncate, Mask.truncate_union]

/-- The rule alone. -/
def strayingSetup : Setup Bool where
  rules _ := .straying
  registry := ⟨fun c => if c = .common then [⟨0⟩] else []⟩
  maxSteps := 50
  logSteps := false
  visitLimit := 8

/-- One task. -/
def oneGraph : Graph := ⟨#[Node.ofKind ⟨0, "x", none, {}⟩]⟩

theorem Setup.optimize_truncate_straying :
    let o := strayingSetup.optimize false oneGraph [some ⟨0⟩]
    let t := strayingSetup.truncate.optimize false oneGraph [some ⟨0⟩]
    t.result = .ok ⟨8, 0⟩ ∧ o.result = .error .exhausted ∧
      t.list = o.list.filter Option.isSome ∧ o.journal.calls.length = 1 ∧
      t.journal.calls = o.journal.calls.map CallRecord.truncate := by
  intro o t
  have hok : t.result = .ok ⟨8, 0⟩ := by decide +kernel
  have hcalls : o.journal.calls = [⟨⟨0⟩, .task (.ofEntry [some ⟨0⟩] ∅ ⟨0⟩), ⟨128⟩, false⟩] := by
    decide +kernel
  obtain ⟨_, _, hsame, _, hcoasts⟩ := strayingSetup.optimize_truncate
    (fun _ _ _ => Rule.blind_straying) false oneGraph [some ⟨0⟩]
  obtain ⟨hout, hlist⟩ := hcoasts ⟨_, hcalls ▸ List.mem_singleton_self _, by decide⟩ _ hok
  exact ⟨hok, hout, hlist, congrArg List.length hcalls, hsame⟩

/-- A bit that names no category changes what comes of an optimization. -/
theorem Setup.optimize_ne_truncate_straying :
    (strayingSetup.optimize false oneGraph [some ⟨0⟩]).result ≠
      (strayingSetup.truncate.optimize false oneGraph [some ⟨0⟩]).result := by
  decide +kernel

end RenderPlan
