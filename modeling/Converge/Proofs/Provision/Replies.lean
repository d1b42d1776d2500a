import Converge.Proofs.Procedure
import Converge.Proofs.Walk
import Converge.Resource

/-!
# What commands came to

The work on resources is followed by the replies to commands: each command with what came of it,
in the order in which they ended.  A monitor over replies says which command may be run after
which replies.
-/

namespace Converge

/-- Commands and what came of them. -/
abbrev Replies : Type := List (Command × Except Failure Output)

namespace Command

/-- Does the command bring a manifest to the cluster? -/
def isKubectl (c : Command) : Bool := c.program = "kubectl"

/-- Does the command ask the registry for an image? -/
def isInspect (c : Command) : Bool :=
  c.program = "docker" && c.args.take 2 = ["manifest", "inspect"]

/-- Does the command build an image? -/
def isBuild (c : Command) : Bool := c.program = "docker" && c.args.head? = some "build"

/-- Does the command push an image? -/
def isPush (c : Command) : Bool := c.program = "docker" && c.args.head? = some "push"

def isGit (c : Command) : Bool := c.program = "git"

end Command

namespace Replies

/-- How many images the registry was asked for. -/
def inspected (past : Replies) : Nat := past.countP fun r => r.1.isInspect

/-- How many manifests were brought to the cluster, with success or without. -/
def applied (past : Replies) : Nat := past.countP fun r => r.1.isKubectl

/-- Has the command exited with code 0? -/
def Succeeded (past : Replies) (c : Command) : Prop := ∃ o, (c, .ok o) ∈ past ∧ o.success = true

/-- Is the image known to the registry: was it found there, or built and pushed after that? -/
def Ready (past : Replies) (i : Image) : Prop :=
  Succeeded past i.inspect ∨ ∃ o o', [(i.build, .ok o), (i.push, .ok o')].Sublist past ∧
    o.success = true ∧ o'.success = true

/-- Is the checkout known to be at its revision: was it found there, the revision being a full
commit hash, or has the revision been checked out? -/
def Sourced (past : Replies) (c : Checkout) : Prop :=
  (Checkout.isCommitHash c.rev = true ∧
    ∃ o, (c.revParse, .ok o) ∈ past ∧ o.success = true ∧ Text.trim o.stdout = c.rev) ∨
  Succeeded past c.switch

variable {past past' : Replies}

theorem Succeeded.mono {c : Command} (h : Succeeded past c) (hp : past <+: past') :
    Succeeded past' c := by
  obtain ⟨o, ho, hsuccess⟩ := h
  exact ⟨o, hp.subset ho, hsuccess⟩

theorem Ready.mono {i : Image} (h : Ready past i) (hp : past <+: past') : Ready past' i := by
  rcases h with h | ⟨o, o', hsub, hsuccess⟩
  · exact .inl (h.mono hp)
  · exact .inr ⟨o, o', hsub.trans hp.sublist, hsuccess⟩

/-- A command that has just succeeded. -/
theorem succeeded_append {c : Command} {o : Output} (ho : o.success = true) :
    Succeeded (past ++ [(c, .ok o)]) c :=
  ⟨o, by simp, ho⟩

/-! ## Counts -/

/-- `n` images were asked for, and `k` manifests were brought to the cluster. -/
structure At (n k : Nat) (past : Replies) : Prop where
  inspected : Replies.inspected past = n
  applied : Replies.applied past = k

namespace At

variable {n k : Nat} {c : Command} {r : Except Failure Output}

/-- Other commands do not count. -/
theorem other (h : At n k past) (hi : c.isInspect = false) (hk : c.isKubectl = false) :
    At n k (past ++ [(c, r)]) where
  inspected := by simpa [Replies.inspected, hi] using h.inspected
  applied := by simpa [Replies.applied, hk] using h.applied

theorem inspect (h : At n k past) (hi : c.isInspect = true) (hk : c.isKubectl = false) :
    At (n + 1) k (past ++ [(c, r)]) where
  inspected := by simpa [Replies.inspected, hi] using h.inspected
  applied := by simpa [Replies.applied, hk] using h.applied

theorem apply (h : At n k past) (hi : c.isInspect = false) (hk : c.isKubectl = true) :
    At n (k + 1) (past ++ [(c, r)]) where
  inspected := by simpa [Replies.inspected, hi] using h.inspected
  applied := by simpa [Replies.applied, hk] using h.applied

end At

end Replies

/-! ## Monitors over replies -/

namespace Monitor

/-- The monitor that says which command may be run after which replies. -/
def ofReplies (mayRun : Replies → Command → Prop) :
    Monitor Command.Request Command.Request.Answer Resource Replies where
  mayAsk past
    | .run c => mayRun past c
    | .pathExists _ => True
  answered past
    | .run c, r => past ++ [(c, r)]
    | .pathExists _, _ => past
  looked past _ := some past
  mayLeave _ _ := True
  left past _ := past

theorem ofReplies_onlyAsks (mayRun : Replies → Command → Prop) : (ofReplies mayRun).OnlyAsks where
  blind _ _ := rfl
  mayLeave _ _ := trivial
  left _ _ := rfl

end Monitor

/-- The reply that a step is, if it is one. -/
def Replies.reply? : Course.Step Command.Request Command.Request.Answer Resource →
    Option (Command × Except Failure Output)
  | .answered (.run c) r => some (c, r)
  | _ => none

/-- The replies among the steps of a course. -/
def Replies.ofSteps (steps : List (Course.Step Command.Request Command.Request.Answer Resource)) :
    Replies :=
  steps.filterMap reply?

variable {mayRun : Replies → Command → Prop} {past : Replies} {α ε : Type}

theorem Monitor.after_ofReplies
    (steps : List (Course.Step Command.Request Command.Request.Answer Resource)) :
    (Monitor.ofReplies mayRun).after past steps = past ++ Replies.ofSteps steps := by
  induction steps generalizing past with
  | nil => exact (List.append_nil past).symm
  | cons step steps ih =>
      rw [Monitor.after, List.foldl_cons, ← Monitor.after, ih]
      cases step with
      | left m => rfl
      | answered q a =>
          cases q with
          | run c => exact List.append_assoc past [(c, a)] _
          | pathExists p => rfl

/-- Where everything may be run from now on, every course meets the monitor. -/
theorem Course.Meets.of_free {post : Replies → α → Prop} {p : Replies → Prop}
    (hgrow : ∀ y x, p y → p (y ++ [x])) (hmay : ∀ y c, p y → mayRun y c)
    (hpost : ∀ y a, p y → post y a)
    (c : Course Command.Request Command.Request.Answer Resource α) (h : p past) :
    c.Meets (Monitor.ofReplies mayRun) post past := by
  induction c generalizing past with
  | done a => exact hpost past a h
  | ask q next ih =>
      cases q with
      | run c => exact ⟨hmay past c h, fun a => ih a (hgrow past (c, a) h)⟩
      | pathExists p => exact ⟨trivial, fun a => ih a h⟩
  | look next ih => exact .look (Monitor.ofReplies_onlyAsks _) fun b => ih b h
  | leave m next ih => exact .leave (Monitor.ofReplies_onlyAsks _) (ih h)

/-- Replies are added to, and nothing else. -/
theorem Course.Meets.grows {post : Replies → α → Prop}
    {c : Course Command.Request Command.Request.Answer Resource α}
    (h : c.Meets (Monitor.ofReplies mayRun) post past) :
    c.Meets (Monitor.ofReplies mayRun) (fun y a => past <+: y ∧ post y a) past := by
  induction c generalizing past with
  | done a => exact ⟨List.prefix_refl _, h⟩
  | ask q next ih =>
      refine ⟨h.1, fun a => (ih a (h.2 a)).mono fun y b hy => ⟨?_, hy.2⟩⟩
      cases q with
      | run c => exact (List.prefix_append _ _).trans hy.1
      | pathExists p => exact hy.1
  | look next ih =>
      intro b y hy
      obtain rfl := Option.some.inj hy
      exact ih b (h b _ rfl)
  | leave m next ih => exact ⟨trivial, ih h.2⟩

theorem Course.Secures.grows {p : Replies → α → Prop}
    {c : Course Command.Request Command.Request.Answer Resource (Except ε α)}
    (h : c.Secures (Monitor.ofReplies mayRun) p past) :
    c.Secures (Monitor.ofReplies mayRun) (fun y a => past <+: y ∧ p y a) past :=
  (Course.Meets.grows h).mono fun _ _ hr a ha => ⟨hr.1, hr.2 a ha⟩

/-- It may always be asked whether a path exists. -/
theorem pathExists_secures {p : Replies → α → Prop} {path : Pathname}
    {f : Bool → Command.Procedure (Except ε α)}
    (h : ∀ b, (Course.ofPlan (f b)).Secures (Monitor.ofReplies mayRun) p past) :
    (Course.ofPlan ((Plan.query (Command.Request.pathExists path)).bind f)).Secures
      (Monitor.ofReplies mayRun) p past :=
  ⟨trivial, h⟩

/-- A command whose result is looked at. -/
theorem Command.run_secures {p : Replies → α → Prop} {c : Command}
    {f : Output → α} (hmay : mayRun past c) (hp : ∀ o, p (past ++ [(c, .ok o)]) (f o)) :
    (Course.ofPlan (c.run.bind fun r => .done (r.map f))).Secures (Monitor.ofReplies mayRun) p
      past := by
  refine ⟨hmay, fun r a ha => ?_⟩
  cases r with
  | error f => cases ha
  | ok o =>
      obtain rfl := Except.ok.inj ha
      exact hp o

/-- A command that is part of what is being done, and what comes of it. -/
theorem Command.perform_meets {post : Replies → Except Failure Unit → Prop} {c : Command}
    (doing : String) (hmay : mayRun past c)
    (hok : ∀ o, o.success = true → post (past ++ [(c, .ok o)]) (.ok ()))
    (herror : ∀ r f, wentWell r = false → post (past ++ [(c, r)]) (.error f)) :
    (Course.ofPlan (c.perform doing)).Meets (Monitor.ofReplies mayRun) post past := by
  refine ⟨hmay, fun r => ?_⟩
  show post (past ++ [(c, r)]) (((c.checked r).mapError (·.within doing)).map fun _ => ())
  cases r with
  | error f => exact herror (.error f) _ rfl
  | ok o =>
      rw [checked]
      split <;> rename_i ho
      · exact hok o ho
      · exact herror (.ok o) _ (Bool.eq_false_iff.mpr ho)

/-- A command that has to succeed. -/
theorem Command.perform_secures {p : Replies → Prop} {c : Command} (doing : String)
    (hmay : mayRun past c) (hp : ∀ o, o.success = true → p (past ++ [(c, .ok o)])) :
    (Course.ofPlan (c.perform doing)).Secures (Monitor.ofReplies mayRun) (fun y _ => p y) past :=
  perform_meets doing hmay (fun o ho _ _ => hp o ho) fun _ _ _ => nofun

end Converge
