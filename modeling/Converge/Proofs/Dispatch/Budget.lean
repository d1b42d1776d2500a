import Converge.Proofs.Dispatch.Returns
import Converge.Proofs.Dispatch.Schedule

/-!
# The turns of a run are enough

No call on a resource asks more than four questions, and so the moves of a run are bounded by the
number of nodes and jobs.  The program lets a run take as many turns as that comes to, and hence
every run that is not given up returns.
-/

namespace Converge

variable {Q : Type} {A : Q → Type} {R α β ε ω : Type}

/-! ## Courses of bounded length -/

/-- What is left of a course is bounded by `n`: a question counts for two, a look or a mark for
one. -/
def Course.Lasts (n : ℕ) (c : Course Q A R α) : Prop := c.rank ≤ n

namespace Course

variable {n k : ℕ}

theorem lasts_done (a : α) : Lasts n (done a : Course Q A R α) := bot_le

theorem Lasts.mono {c : Course Q A R α} (h : Lasts n c) (hle : n ≤ k) : Lasts k c :=
  h.trans (Nat.cast_le.mpr hle)

theorem Lasts.leave {m : Mark R} {c : Course Q A R α} (h : Lasts n c) :
    Lasts (n + 1) (leave m c) := by
  rw [Lasts, rank, Nat.cast_succ]
  exact add_le_add_left h 1

theorem Lasts.look {next : Bool → Course Q A R α} (h : ∀ b, Lasts n (next b)) :
    Lasts (n + 1) (look next) := by
  rw [Lasts, rank, Nat.cast_succ]
  exact add_le_add_left (max_le (h false) (h true)) 1

theorem Lasts.ask {q : Q} {next : A q → Course Q A R α} (h : ∀ a, Lasts n (next a)) :
    Lasts (n + 2) (ask q next) := by
  rw [Lasts, rank, Nat.cast_succ, Nat.cast_succ]
  refine add_le_add_left (Ordinal.iSup_le fun a => ?_) 1
  exact add_le_add_left (h a) 1

theorem rank_bind_le {o : Ordinal.{0}} (c : Course Q A R α) {f : α → Course Q A R β}
    (h : ∀ a, (f a).rank ≤ o) : (c.bind f).rank ≤ o + c.rank := by
  induction c with
  | done a =>
      rw [rank, add_zero]
      exact h a
  | ask q next ih =>
      rw [ask_bind, rank, rank, ← add_assoc]
      refine add_le_add_left (Ordinal.iSup_le fun a => ?_) 1
      calc ((next a).bind f).rank + 1
          ≤ o + (next a).rank + 1 := add_le_add_left (ih a) 1
        _ = o + ((next a).rank + 1) := add_assoc _ _ _
        _ ≤ o + ⨆ a, (next a).rank + 1 :=
            add_le_add_right (Ordinal.le_iSup (fun a => (next a).rank + 1) a) o
  | look next ih =>
      rw [look_bind, rank, rank, ← add_assoc]
      refine add_le_add_left (max_le ?_ ?_) 1
      · exact (ih false).trans (add_le_add_right (le_max_left _ _) o)
      · exact (ih true).trans (add_le_add_right (le_max_right _ _) o)
  | leave m next ih =>
      rw [leave_bind, rank, rank, ← add_assoc]
      exact add_le_add_left ih 1

theorem Lasts.bind {c : Course Q A R α} {f : α → Course Q A R β} (hc : Lasts n c)
    (hf : ∀ a, Lasts k (f a)) : Lasts (k + n) (c.bind f) := by
  rw [Lasts, Nat.cast_add]
  exact (rank_bind_le c hf).trans (add_le_add_right hc _)

theorem Lasts.andThen {c : Course Q A R (Except ε α)} {f : α → Course Q A R (Except ε β)}
    (hc : Lasts n c) (hf : ∀ a, Lasts k (f a)) : Lasts (k + n) (c.andThen f) := by
  refine hc.bind fun x => ?_
  cases x with
  | ok a => exact hf a
  | error e => exact lasts_done _

theorem Lasts.call {c : Call} {x : R} {work : Plan Q A α}
    (h : Lasts n (ofPlan work : Course Q A R α)) : Lasts (n + 2) (call c x work) := by
  refine (h.bind (k := 1) fun a => ?_).leave.mono (by omega)
  exact (lasts_done (n := 0) a).leave

end Course

/-! ## Trees -/

/-- The calls on a resource do not ask more than `n / 2` questions. -/
structure Provider.Modest (P : Provider Q A R) (n : ℕ) : Prop where
  satisfied : ∀ x, Course.Lasts n (Course.ofPlan (P.satisfied x) : Course Q A R _)
  apply : ∀ x, Course.Lasts n (Course.ofPlan (P.apply x) : Course Q A R _)

namespace Tree

variable {P : Provider Q A R} {n : ℕ} (policy : Policy)

theorem lasts_stop (here : Address) (f : Fault) :
    (stop here f : Course Q A R (Except Fault α)).Lasts 1 :=
  .look fun _ => Course.lasts_done (n := 0) _

theorem lasts_isSatisfied (hP : P.Modest n) (here : Address) (x : R) :
    (isSatisfied P here x).Lasts (1 + (n + 2)) := by
  refine (hP.satisfied x).call.bind fun result => ?_
  cases result with
  | ok b => exact Course.lasts_done _
  | error f => exact lasts_stop here _

theorem lasts_applyResource (hP : P.Modest n) (here : Address) (x : R) :
    (applyResource P here x).Lasts (n + 5) := by
  refine .look fun cancelled => ?_
  cases cancelled with
  | true => exact Course.lasts_done _
  | false =>
      refine ((hP.apply x).call.bind (k := 1) fun result => ?_).leave.mono (by omega)
      cases result with
      | ok a => exact (Course.lasts_done (n := 0) _).leave
      | error f => exact lasts_stop here _

mutual

theorem lasts_convergeAt (hP : P.Modest n) (above : Address) (t : Tree R) :
    (t.convergeAt P policy above).Lasts ((2 * n + 9) * t.size) := by
  cases t with
  | node name resource ts =>
      have hbelow := lasts_convergeAll hP (above.child name) ts
      rw [size_node, Nat.mul_add, Nat.mul_one]
      generalize (2 * n + 9) * sizeAll ts = below at hbelow
      cases resource with
      | none =>
          rw [convergeAt_bare]
          refine Course.Lasts.mono (.look (n := below) fun cancelled => ?_) (by omega)
          cases cancelled with
          | true => exact Course.lasts_done _
          | false =>
              refine (hbelow.andThen (k := 0) fun tally => ?_).mono (by omega)
              exact Course.lasts_done _
      | some x =>
          rw [convergeAt_resource]
          refine Course.Lasts.mono (.look (n := below + 2 * n + 8) fun cancelled => ?_) (by omega)
          cases cancelled with
          | true => exact Course.lasts_done _
          | false =>
              refine ((lasts_isSatisfied hP _ x).andThen (k := below + n + 5)
                fun satisfied => ?_).mono (by omega)
              cases satisfied with
              | true =>
                  refine (Course.Lasts.leave (n := below) ?_).mono (by omega)
                  cases policy with
                  | skipSubtree => exact Course.lasts_done _
                  | selfOnly =>
                      refine (hbelow.andThen (k := 0) fun tally => ?_).mono (by omega)
                      exact Course.lasts_done _
              | false =>
                  refine (hbelow.andThen (k := n + 5) fun tally => ?_).mono (by omega)
                  refine ((lasts_applyResource hP _ x).andThen (k := 0) fun _ => ?_).mono (by omega)
                  exact Course.lasts_done _

theorem lasts_convergeAll (hP : P.Modest n) (above : Address) (ts : List (Tree R)) :
    (convergeAll P policy above ts).Lasts ((2 * n + 9) * sizeAll ts) := by
  cases ts with
  | nil =>
      rw [convergeAll_nil]
      exact Course.lasts_done _
  | cons t ts =>
      rw [convergeAll_cons, sizeAll_cons, Nat.mul_add, Nat.add_comm]
      refine (lasts_convergeAt hP above t).andThen fun first => ?_
      refine ((lasts_convergeAll hP above ts).andThen (k := 0) fun others => ?_).mono (by omega)
      exact Course.lasts_done _

end

/-- The course of a tree is bounded by the number of its nodes. -/
theorem lasts_converge (hP : P.Modest n) (t : Tree R) :
    (t.converge P policy).Lasts ((2 * n + 9) * t.size + 2) := by
  refine (((lasts_convergeAt policy hP .top t).bind (k := 1) fun result => ?_).mono
    (Nat.add_comm _ _).le).leave
  cases result with
  | ok tally => exact (Course.lasts_done (n := 0) _).leave
  | error f =>
      rw [concluded]
      split
      · exact Course.lasts_done _
      · exact (Course.lasts_done (n := 0) _).leave

end Tree

/-! ## Resources -/

section Resources

variable {p : Plan Q A α} {n k : ℕ}

/-- A plan that takes a course bounded by `n`. -/
abbrev Plan.Lasts (R : Type) (n : ℕ) (p : Plan Q A α) : Prop :=
  Course.Lasts n (Course.ofPlan p : Course Q A R α)

theorem Plan.lasts_done (a : α) : (Plan.done a : Plan Q A α).Lasts R n := Course.lasts_done a

theorem Plan.lasts_query (q : Q) : (Plan.query q : Plan Q A (A q)).Lasts R 2 :=
  .ask fun _ => Course.lasts_done (n := 0) _

theorem Plan.Lasts.bind {f : α → Plan Q A β} (hp : p.Lasts R n) (hf : ∀ a, (f a).Lasts R k) :
    (p.bind f).Lasts R (k + n) := by
  rw [Plan.Lasts, Course.ofPlan_bind]
  exact Course.Lasts.bind hp hf

theorem Plan.Lasts.andThen {p : Plan Q A (Except ε α)} {f : α → Plan Q A (Except ε β)}
    (hp : p.Lasts R n) (hf : ∀ a, (f a).Lasts R k) : (p.andThen f).Lasts R (k + n) := by
  rw [Plan.Lasts, Course.ofPlan_andThen]
  exact Course.Lasts.andThen hp hf

theorem Command.lasts_run (c : Command) : c.run.Lasts R 2 := Plan.lasts_query _

theorem Command.lasts_perform (c : Command) (doing : String) : (c.perform doing).Lasts R 2 :=
  (c.lasts_run.bind (k := 0) fun _ => Plan.lasts_done _).bind (k := 0) fun _ => Plan.lasts_done _

/-- Git is asked twice at most whether the revision is there, and four times to check it out. -/
theorem Checkout.lasts_satisfied (c : Checkout) : c.satisfied.Lasts R 4 := by
  rw [Checkout.satisfied]
  split
  · refine (Plan.lasts_query (Command.Request.pathExists c.marker)).bind (k := 2) fun cloned => ?_
    cases cloned with
    | true => exact c.revParse.lasts_run.bind (k := 0) fun _ => Plan.lasts_done _
    | false => exact Plan.lasts_done _
  · exact Plan.lasts_done _

theorem Checkout.lasts_apply (c : Checkout) : c.apply.Lasts R 8 := by
  refine (Plan.lasts_query (Command.Request.pathExists c.marker)).bind (k := 6) fun cloned => ?_
  refine Plan.Lasts.andThen (n := 2) (k := 4) ?_ fun _ => ?_
  · cases cloned with
    | true => exact Plan.lasts_done _
    | false => exact c.clone.lasts_perform _
  · refine Plan.Lasts.andThen (n := 2) (k := 2) ?_ fun _ => c.switch.lasts_perform _
    split
    · exact c.fetch.lasts_perform _
    · exact Plan.lasts_done _

theorem Image.lasts_satisfied (i : Image) : i.satisfied.Lasts R 2 :=
  i.inspect.lasts_run.bind (k := 0) fun _ => Plan.lasts_done _

theorem Image.lasts_apply (i : Image) : i.apply.Lasts R 4 :=
  (i.build.lasts_perform _).andThen (k := 2) fun _ => i.push.lasts_perform _

theorem Resource.modest : Resource.provider.Modest 8 where
  satisfied x := by
    cases x with
    | checkout c => exact c.lasts_satisfied.mono (by decide)
    | image i => exact i.lasts_satisfied.mono (by decide)
    | manifest m => exact Plan.lasts_done _
  apply x := by
    cases x with
    | checkout c => exact c.lasts_apply
    | image i => exact i.lasts_apply.mono (by decide)
    | manifest m => exact (m.command.lasts_perform _).mono (by decide)

end Resources

/-! ## Runs -/

namespace Fleet

variable {u : Setup Q A R}

/-- What the course of a job may take. -/
def Setup.allowance (u : Setup Q A R) (i : Nat) : ℕ :=
  ((u.jobs[i]?).map fun job => 25 * job.tree.size + 2).getD 0

theorem Setup.bounded_allowance (hP : u.provider.Modest 8) : u.Bounded u.allowance := by
  intro i
  rw [allowance, course]
  cases u.jobs[i]? with
  | none => exact Course.lasts_done (n := 0) _
  | some job => exact job.tree.lasts_converge u.policy hP

theorem sum_range_jobs (jobs : List (Job R)) :
    ∑ i ∈ Finset.range jobs.length,
        (7 + ((jobs[i]?).map fun job => 25 * job.tree.size + 2).getD 0) =
      25 * Tree.sizeAll (jobs.map Job.tree) + 9 * jobs.length := by
  induction jobs with
  | nil => rfl
  | cons job jobs ih =>
      rw [List.length_cons, Finset.sum_range_succ']
      simp only [List.getElem?_cons_succ, List.getElem?_cons_zero, ih, List.map_cons,
        Tree.sizeAll_cons, Option.map_some, Option.getD_some]
      omega

/-- What is allowed to all jobs together. -/
theorem effort_start (u : Setup Q A R) (scopes : Scopes) (caller : Nat) :
    (start u scopes caller).effort u u.allowance =
      25 * Tree.sizeAll (u.jobs.map Job.tree) + 9 * u.jobs.length := by
  rw [State.effort, ← sum_range_jobs]
  refine Finset.sum_congr rfl fun i hi => ?_
  have hfresh : (start u scopes caller).stages[i]? = some .fresh := by
    rw [start, List.getElem?_map, List.getElem?_eq_getElem (Finset.mem_range.mp hi)]
    rfl
  rw [State.height_eq hfresh]
  rfl

namespace Dispatch

/-- A run that is not given up returns, whatever the environment does. -/
theorem closed_carryOn {env : Environment Q A ω} {world : ω} {scopes : Scopes} {caller : Nat}
    {interventions : List (Nat × Intervention)} (hP : u.provider.Modest 8)
    (h : ∀ x ∈ interventions, x.2 = .cancelCaller) :
    (carryOn u env world caller interventions (start u scopes caller)).state.closed = true := by
  have hopening := rested_opening u u.allowance world scopes caller interventions
  have hstart : (start u scopes caller).effort u u.allowance =
      25 * Tree.sizeAll (u.jobs.map Job.tree) + 9 * u.jobs.length := effort_start u scopes caller
  have hremaining :
      (opening (start u scopes caller) world caller interventions).remaining u u.allowance =
        25 * Tree.sizeAll (u.jobs.map Job.tree) + 9 * u.jobs.length + interventions.length :=
    congrArg (· + interventions.length) hstart
  have hdelay := hopening.attended.delay_le
  refine hopening.closed_proceed (Setup.bounded_allowance hP) h rfl ?_ ?_
  · show State.effort u u.allowance (start u scopes caller) < _
    rw [hstart]
    exact lt_of_lt_of_le (Nat.lt_succ_of_le (Nat.le_add_right _ interventions.length))
      (Nat.le_mul_of_pos_right _ (Nat.succ_pos _))
  · rw [potential, hremaining, enough]
    generalize _ + interventions.length = moves
    rw [Nat.add_one_mul moves]
    omega

end Dispatch

end Fleet

namespace Stretch

variable {m : Machine} {env : Outside ω} {policy : Policy} {limit : Nat}
  {jobs : List (Job Resource)} {s : Environment.Solo ω}

/-- More permits than there can be put an end to the program. -/
theorem converge_of_not_isAdmissible (h : (m.fleet policy limit jobs).isAdmissible = false) :
    converge m env policy limit jobs s =
      ⟨.overcommitted, [(m.fleet policy limit jobs).announcement], [], s⟩ := by
  rw [converge, Fleet.Dispatch.run?, Fleet.begin?, h]
  rfl

/-- Otherwise what the program converges to, writes down and asks for is what a run comes to that
has returned. -/
theorem exists_closed (env : Outside ω) (s : Environment.Solo ω)
    (h : (m.fleet policy limit jobs).isAdmissible = true) :
    ∃ t, Fleet.Reachable (m.fleet policy limit jobs)
        (Fleet.start (m.fleet policy limit jobs) s.scopes s.scope) t ∧
      t.closed = true ∧
      (converge m env policy limit jobs s).result = .ofRun t.result ∧
      (converge m env policy limit jobs s).events = t.history.reverse.filterMap Fleet.Deed.event? ∧
      (converge m env policy limit jobs s).asked =
        t.history.reverse.filterMap Fleet.Deed.request? := by
  let fleet := m.fleet policy limit jobs
  let last := Fleet.Dispatch.carryOn fleet env s.world s.scope s.interventions
    (Fleet.start fleet s.scopes s.scope)
  have hreach : Fleet.Reachable fleet (Fleet.start fleet s.scopes s.scope) last.state :=
    Fleet.Dispatch.reachable_carryOn s.interventions_eq
  refine ⟨_, hreach, Fleet.Dispatch.closed_carryOn Resource.modest s.interventions_eq, ?_⟩
  rw [converge, Fleet.Dispatch.run?, Fleet.begin?, h]
  exact ⟨rfl, rfl, rfl⟩

end Stretch

end Converge
