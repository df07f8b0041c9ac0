/-
# RenderPlan.Proofs.Queue.Pump -- a pump is one order of the workers' steps

A pump takes no step that a pool would not take. If the jobs themselves leave the pool alone, all its
steps are steps of workers (`works_pump`), so what holds of every run of a pool holds of the one that
a pump makes.
-/
import RenderPlan.Queue.Pump
import RenderPlan.Proofs.Queue.Dispatch

namespace RenderPlan.Pool

variable {α π S : Type} {p q r : Pool α π} {a : Action α π} {w : Nat}

/-- Steps of workers lead from one pool to the other. -/
def Works (p q : Pool α π) : Prop := ∃ as, (∀ a ∈ as, ∃ w, a.IsOf w) ∧ p.run? as = some q

theorem Works.refl (p : Pool α π) : p.Works p := ⟨[], nofun, rfl⟩

theorem Works.trans (hpq : p.Works q) (hqr : q.Works r) : p.Works r := by
  obtain ⟨as, has, hq⟩ := hpq
  obtain ⟨bs, hbs, hr⟩ := hqr
  refine ⟨as ++ bs, List.forall_mem_append.mpr ⟨has, hbs⟩, ?_⟩
  rw [run?_append, hq]
  exact hr

/-- A step that cannot be taken now is left out. -/
theorem works_act (p : Pool α π) (ha : a.IsOf w) : p.Works (act a p) := by
  unfold act
  cases hstep : p.step? a with
  | none => exact .refl p
  | some q =>
      refine ⟨[a], List.forall_mem_singleton.mpr ⟨w, ha⟩, ?_⟩
      rw [run?, hstep]
      rfl

variable {body : Body α π S}

theorem works_passOfWorker (hbody : ∀ a job ps, (body a job ps).1 = ps) (w jobs old : Nat)
    (p : Pool α π) (s : S) : p.Works (passOfWorker body w jobs old (p, s)).1 := by
  induction jobs generalizing old p s with
  | zero => exact .refl p
  | succ jobs ih =>
      unfold passOfWorker
      split
      · have hwoken : p.Works (act (.wake w) p) := works_act p (a := .wake w) (w := w) rfl
        have hchecked := hwoken.trans (works_act _ (a := .check w) (w := w) rfl)
        dsimp only
        split
        · exact hchecked
        · next job _ =>
            -- whatever the job answers, the pool is as it was
            have hanswered : ∀ (ok : Bool) (s : S) (left : Nat), p.Works (passOfWorker body w jobs left
                (act (.report w) (act (.run w ok) (act (.check w) (act (.wake w) p))), s)).1 := by
              intro ok s left
              have hran := hchecked.trans (works_act _ (a := .run w ok) (w := w) rfl)
              have hdone := hran.trans (works_act _ (a := .report w) (w := w) rfl)
              exact hdone.trans (ih left _ s)
            cases job.payload with
            | work a =>
                dsimp only
                have hsame := hbody a job (act (.check w) (act (.wake w) p), s)
                generalize body a job (act (.check w) (act (.wake w) p), s) = r at hsame ⊢
                obtain ⟨ps, ok⟩ := r
                obtain rfl : ps = _ := hsame
                exact hanswered ok s _
            | barrier => exact hanswered true s _
      · exact .refl p

theorem works_pass (hbody : ∀ a job ps, (body a job ps).1 = ps) (jobs : Nat) (ps : Pool α π × S)
    (lane : Lane) : ps.1.Works (pass body jobs ps lane).1 := by
  unfold pass
  split
  · exact works_passOfWorker hbody _ jobs _ ps.1 ps.2
  · exact .refl ps.1

/-- **A pump does what workers can do**, if the jobs leave the pool alone. -/
theorem works_pump (hbody : ∀ a job ps, (body a job ps).1 = ps) (jobs : Nat) (lanes : List Lane)
    (rounds : Nat) (ps : Pool α π × S) : ps.1.Works (pump body jobs lanes rounds ps).1 := by
  have hround : ∀ (ls : List Lane) (ps : Pool α π × S),
      ps.1.Works (ls.foldl (pass body jobs) ps).1 := by
    intro ls
    induction ls with
    | nil => exact fun ps => .refl ps.1
    | cons lane ls ih => exact fun ps => (works_pass hbody jobs ps lane).trans (ih _)
  induction rounds generalizing ps with
  | zero => exact .refl ps.1
  | succ rounds ih =>
      unfold pump
      dsimp only
      split
      · exact hround lanes ps
      · exact (hround lanes ps).trans (ih _)

/-- What a pump leads to is reached. -/
theorem Reached.works {pool : Pool α π} {as : List (Action α π)} (h : pool.Reached as p)
    (hw : p.Works q) : ∃ bs, (∀ b ∈ bs, ∃ w, b.IsOf w) ∧ pool.Reached (as ++ bs) q := by
  obtain ⟨bs, hbs, hrun⟩ := hw
  have hids : Action.idsOf bs = [] := by
    refine List.flatMap_eq_nil_iff.mpr fun b hb => ?_
    obtain ⟨w, hw⟩ := hbs b hb
    exact hw.ids_eq_nil
  refine ⟨bs, hbs, h.extend ?_ hrun⟩
  rw [Action.idsOf_append, hids, List.append_nil]
  exact h.distinct

end RenderPlan.Pool
