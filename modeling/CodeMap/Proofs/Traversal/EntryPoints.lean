/-
Entry points: where the ways that lead to a node begin.

The search climbs from a node against the direction of the edges. `Climbing`
is what it keeps: every id it met is done with or still on the stack, every id
it met leads to the node, the callers of what is done with were met, and the
entries are those of the ids done with that nobody else refers to. Once the
stack is empty the ids that were met are exactly those that lead to the node
(`Climbing.met_iff`), through cycles, loops and ids without a node alike.

# Termination

Every step is done with one more id, and no id is met twice. An id that leads
to another one is the source of an edge, so there are at most as many ids as
edges, and one more for the node itself (`Climbing.length_met_le`): that is
why one step per edge and one more are enough.
-/
import CodeMap.Proofs.Traversal.Rows
import Mathlib.Data.List.Perm.Subperm
import Mathlib.Logic.Relation

namespace CodeMap.Traversal

open Relation (ReflTransGen)

variable {s : Store} {repo id : String}

-- ================================================================== callers

theorem mem_callers_iff {x y : String} :
    y ∈ callers s repo x ↔ s.Leads repo y x ∧ y ≠ x := by
  simp only [callers, Store.incoming, Store.Leads, List.mem_filter, List.mem_map, beq_iff_eq,
    decide_eq_true_eq]
  constructor
  · rintro ⟨⟨e, ⟨he, htarget⟩, hsource⟩, hne⟩
    exact ⟨⟨e, he, hsource, htarget⟩, hne⟩
  · rintro ⟨⟨e, he, hsource, htarget⟩, hne⟩
    exact ⟨⟨e, ⟨he, htarget⟩, hsource⟩, hne⟩

/-- Nobody else refers to an id. -/
theorem callers_eq_nil_iff {x : String} :
    callers s repo x = [] ↔ ∀ e ∈ s.edgesOf repo, e.targetId = x → e.sourceId = x := by
  rw [List.eq_nil_iff_forall_not_mem]
  constructor
  · intro h e he htarget
    by_contra hne
    exact h e.sourceId (mem_callers_iff.mpr ⟨⟨e, he, rfl, htarget⟩, hne⟩)
  · intro h y hy
    obtain ⟨⟨e, he, hsource, htarget⟩, hne⟩ := mem_callers_iff.mp hy
    exact hne (hsource ▸ h e he htarget)

/-- Pushing ids puts those that were not met, each once, both on the stack and
among the ids that were met. -/
theorem foldl_pushNew (found : List String) :
    ∀ stack met : List String, met.Nodup → ∃ new : List String,
      found.foldl pushNew (stack, met) = (new ++ stack, new ++ met)
      ∧ (new ++ met).Nodup ∧ (∀ x ∈ new, x ∈ found) ∧ ∀ x ∈ found, x ∈ new ++ met := by
  induction found with
  | nil =>
      intro stack met hmet
      exact ⟨[], rfl, hmet, by simp, by simp⟩
  | cons x found ih =>
      intro stack met hmet
      rw [List.foldl_cons, pushNew]
      by_cases hx : x ∈ met
      · rw [if_pos (List.contains_iff_mem.mpr hx)]
        obtain ⟨new, heq, hnodup, hfound, hall⟩ := ih stack met hmet
        refine ⟨new, heq, hnodup, fun y hy => List.mem_cons_of_mem x (hfound y hy), fun y hy => ?_⟩
        rcases List.mem_cons.mp hy with rfl | hy
        · exact List.mem_append_right new hx
        · exact hall y hy
      · rw [if_neg (fun h => hx (List.contains_iff_mem.mp h))]
        obtain ⟨new, heq, hnodup, hfound, hall⟩ :=
          ih (x :: stack) (x :: met) (List.nodup_cons.mpr ⟨hx, hmet⟩)
        have hjoin : ∀ ys : List String, new ++ x :: ys = (new ++ [x]) ++ ys := by simp
        rw [hjoin met] at hnodup hall
        refine ⟨new ++ [x], by rw [heq, hjoin stack, hjoin met], hnodup, fun y hy => ?_,
          fun y hy => ?_⟩
        · rcases List.mem_append.mp hy with hy | hy
          · exact List.mem_cons_of_mem x (hfound y hy)
          · exact List.mem_cons.mpr (.inl (List.mem_singleton.mp hy))
        · rcases List.mem_cons.mp hy with rfl | hy
          · simp
          · exact hall y hy

-- =============================================================== the search

/-- What the search for the entry points of an id keeps. -/
structure Climbing (s : Store) (repo id : String) (done stack met entries : List String) :
    Prop where
  parts : (done ++ stack).Perm met
  distinct : met.Nodup
  start : id ∈ met
  leads : ∀ x ∈ met, ReflTransGen (s.Leads repo) x id
  closed : ∀ x ∈ done, ∀ y ∈ callers s repo x, y ∈ met
  entries : ∀ x, x ∈ entries ↔ x ∈ done ∧ callers s repo x = []

namespace Climbing

variable {done stack met entries : List String}

theorem init (s : Store) (repo id : String) : Climbing s repo id [] [id] [id] [] where
  parts := List.Perm.refl [id]
  distinct := List.nodup_singleton id
  start := List.mem_singleton_self id
  leads x hx := by
    rw [List.mem_singleton.mp hx]
  closed := by simp
  entries := by simp

/-- An id that leads to another one is the source of an edge, so there are at
most as many ids as edges, and one more. -/
theorem length_met_le (h : Climbing s repo id done stack met entries) :
    met.length ≤ s.edges.length + 1 := by
  have hsubset : met ⊆ id :: (s.edgesOf repo).map (·.sourceId) := by
    intro x hx
    rcases (h.leads x hx).cases_head with rfl | ⟨y, ⟨e, he, hsource, -⟩, -⟩
    · exact List.mem_cons_self
    · exact List.mem_cons_of_mem id (List.mem_map.mpr ⟨e, he, hsource⟩)
  have hlength := (h.distinct.subperm hsubset).length_le
  have hedges : (s.edgesOf repo).length ≤ s.edges.length := by
    rw [Store.edgesOf]
    exact Nat.le_trans (List.length_filter_le _ _) (Nat.le_of_eq (List.length_map _))
  simp only [List.length_cons, List.length_map] at hlength
  omega

/-- The top of the stack is an entry. -/
theorem step_entry {x : String} (h : Climbing s repo id done (x :: stack) met entries)
    (hcallers : callers s repo x = []) :
    Climbing s repo id (x :: done) stack met (x :: entries) where
  parts := List.perm_middle.symm.trans h.parts
  distinct := h.distinct
  start := h.start
  leads := h.leads
  closed y hy := by
    rcases List.mem_cons.mp hy with rfl | hy
    · rw [hcallers]
      simp
    · exact h.closed y hy
  entries y := by
    rw [List.mem_cons, List.mem_cons, h.entries]
    constructor
    · rintro (rfl | ⟨hdone, hnone⟩)
      · exact ⟨.inl rfl, hcallers⟩
      · exact ⟨.inr hdone, hnone⟩
    · rintro ⟨rfl | hdone, hnone⟩
      · exact .inl rfl
      · exact .inr ⟨hdone, hnone⟩

/-- The top of the stack has callers, and those that were not met are pushed. -/
theorem step_callers {x : String} (h : Climbing s repo id done (x :: stack) met entries)
    (hcallers : callers s repo x ≠ []) :
    ∃ stack' met', (callers s repo x).foldl pushNew (stack, met) = (stack', met')
      ∧ Climbing s repo id (x :: done) stack' met' entries := by
  obtain ⟨new, heq, hnodup, hfound, hall⟩ := foldl_pushNew (callers s repo x) stack met h.distinct
  have hx : x ∈ met := h.parts.subset (by simp)
  refine ⟨new ++ stack, new ++ met, heq, ?_, hnodup, List.mem_append_right new h.start,
    fun y hy => ?_, fun y hy => ?_, fun y => ?_⟩
  · have hnew : (x :: done ++ (new ++ stack)).Perm (new ++ (x :: done ++ stack)) :=
      List.perm_append_comm_assoc _ _ _
    have htop : (x :: done ++ stack).Perm (done ++ x :: stack) := List.perm_middle.symm
    exact hnew.trans ((htop.trans h.parts).append_left new)
  · rcases List.mem_append.mp hy with hy | hy
    · exact .head (mem_callers_iff.mp (hfound y hy)).1 (h.leads x hx)
    · exact h.leads y hy
  · rcases List.mem_cons.mp hy with rfl | hy
    · exact hall
    · exact fun z hz => List.mem_append_right new (h.closed y hy z hz)
  · rw [h.entries, List.mem_cons]
    constructor
    · rintro ⟨hdone, hnone⟩
      exact ⟨.inr hdone, hnone⟩
    · rintro ⟨rfl | hdone, hnone⟩
      · exact absurd hnone hcallers
      · exact ⟨hdone, hnone⟩

/-- With one step per edge and one more, less those that were taken, the
search empties its stack. -/
theorem run (fuel : Nat) : ∀ {done stack met entries : List String},
    Climbing s repo id done stack met entries → s.edges.length + 1 ≤ fuel + done.length →
      ∃ done' met', Climbing s repo id done' [] met' (climb s repo fuel stack met entries) := by
  induction fuel with
  | zero =>
      intro done stack met entries h hfuel
      have hlength := h.parts.length_eq
      rw [List.length_append] at hlength
      have hmet := h.length_met_le
      have hstack : stack = [] := List.eq_nil_of_length_eq_zero (by omega)
      subst hstack
      exact ⟨done, met, h⟩
  | succ fuel ih =>
      intro done stack met entries h hfuel
      cases stack with
      | nil => exact ⟨done, met, h⟩
      | cons x stack =>
          have hfuel' : s.edges.length + 1 ≤ fuel + (x :: done).length := by
            rw [List.length_cons]
            omega
          rw [climb]
          split
          next hnone => exact ih (h.step_entry hnone) hfuel'
          next hsome =>
              obtain ⟨stack', met', heq, hnext⟩ := h.step_callers hsome
              rw [heq]
              exact ih hnext hfuel'

/-- Once the stack is empty, what was met is what leads to the id: callers were
met step by step, and a loop adds no id. -/
theorem met_iff (h : Climbing s repo id done [] met entries) (x : String) :
    x ∈ met ↔ ReflTransGen (s.Leads repo) x id := by
  constructor
  · exact h.leads x
  · intro hleads
    induction hleads using ReflTransGen.head_induction_on with
    | refl => exact h.start
    | @head y z hstep _ ih =>
        by_cases hyz : y = z
        · rw [hyz]
          exact ih
        · have hdone : z ∈ done := by
            have hparts := h.parts.mem_iff.mpr ih
            rwa [List.append_nil] at hparts
          exact h.closed z hdone y (mem_callers_iff.mpr ⟨hstep, hyz⟩)

end Climbing

/-- The search ends with the ids that lead to a node and that nobody else
refers to. -/
theorem mem_climb_iff (s : Store) (repo id x : String) :
    x ∈ climb s repo (s.edges.length + 1) [id] [id] [] ↔
      ReflTransGen (s.Leads repo) x id ∧ callers s repo x = [] := by
  obtain ⟨done, met, h⟩ := (Climbing.init s repo id).run (s.edges.length + 1) (by simp)
  have hdone : x ∈ done ↔ x ∈ met := by
    rw [← h.parts.mem_iff, List.append_nil]
  rw [h.entries, hdone, h.met_iff]

/-- The entry points of an id are, each once and in the order of rows, exactly
the stored nodes from which edges lead to the id, in any number of steps, and
to which no edge leads except from themselves. -/
theorem entryPoints_exact (hkeyed : s.Keyed) (repo id : String) :
    (entryPoints s repo id).Nodup
    ∧ (entryPoints s repo id).Pairwise (fun a b => (a.order b).isLE)
    ∧ ∀ n, n ∈ entryPoints s repo id ↔
        n ∈ s.nodesOf repo ∧ ReflTransGen (s.Leads repo) n.nodeId id
        ∧ ∀ e ∈ s.edgesOf repo, e.targetId = n.nodeId → e.sourceId = n.nodeId := by
  refine ⟨nodup_rowsWith s repo _, pairwise_rowsWith s repo _, fun n => ?_⟩
  rw [entryPoints, mem_rowsWith_iff hkeyed, mem_climb_iff, callers_eq_nil_iff]

theorem entryPoints_exact_sample :
    tangleRow "a" 1 ∈ entryPoints tangle "r" "c"
      ∧ tangleRow "b" 5 ∉ entryPoints tangle "r" "c" := by
  have hexact := (entryPoints_exact keyed_tangle "r" "c").2.2
  have hab : tangle.Leads "r" "a" "b" :=
    ⟨tangleEdge "a" "b" "call", by decide +kernel, rfl, rfl⟩
  have hbc : tangle.Leads "r" "b" "c" :=
    ⟨tangleEdge "b" "c" "call", by decide +kernel, rfl, rfl⟩
  refine ⟨(hexact _).mpr ⟨by decide +kernel, .head hab (.single hbc), by decide +kernel⟩,
    fun hb => ?_⟩
  have hself := ((hexact _).mp hb).2.2 (tangleEdge "a" "b" "call") (by decide +kernel) rfl
  exact absurd hself (by decide +kernel)

end CodeMap.Traversal
