import Converge.Proofs.Fleet.Dialogue
import Converge.Proofs.Fleet.Smooth
import Converge.Proofs.Provision.Prerequisites

/-!
# What the registry has

The registry is part of the world outside, and all that is known of it is how it answers.  An honest
one shows what was there from the beginning and what has been pushed to it since, and nothing else.
Between a question and its answer the other jobs go on, so the registry may look at what it has at
any time between the two.
-/

namespace Converge

open Command (Request)

namespace Command

/-- The reference that the registry is asked for. -/
def inspected? (c : Command) : Option String := if c.isInspect then c.args[2]? else none

/-- The reference that is pushed to the registry. -/
def pushed? (c : Command) : Option String := if c.isPush then c.args[1]? else none

/-- The reference that an image is built for. -/
def built? (c : Command) : Option String :=
  if c.isBuild && c.args[1]? = some "-t" then c.args[2]? else none

end Command

namespace Image

@[simp] theorem inspected?_inspect (i : Image) : i.inspect.inspected? = some i.reference := rfl
@[simp] theorem pushed?_push (i : Image) : i.push.pushed? = some i.reference := rfl
@[simp] theorem built?_build (i : Image) : i.build.built? = some i.reference := rfl

end Image

namespace Fleet

/-- What has happened in a run that works with commands, the latest first. -/
abbrev Deeds : Type := List (Deed Request Request.Answer Resource)

/-- Is it the success of a push? -/
def Deed.hasPushed (ref : String) : Deed Request Request.Answer Resource → Bool
  | .step _ (.answered (.run c) r) => c.pushed? = some ref && Command.wentWell r
  | _ => false

/-- Does the registry have the reference after these deeds, if `present` is what it had before? -/
def stocked (present : String → Bool) (h : Deeds) (ref : String) : Bool :=
  present ref || h.any (·.hasPushed ref)

/-- The deeds up to the latest one of job `i`. -/
def upTo (i : Nat) (h : Deeds) : Deeds := h.dropWhile fun d => d.job? ≠ some i

/-- Does the registry answer honestly, if it is the deed after those in `h`?  It has been asked in
the latest deed of the same job. -/
def Deed.IsHonest (present : String → Bool) (h : Deeds) :
    Deed Request Request.Answer Resource → Prop
  | .step i (.answered (.run c) r) => ∀ ref ∈ c.inspected?,
      (Command.wentWell r = true → stocked present h ref = true) ∧
      (stocked present (upTo i h) ref = true → Command.wentWell r = true)
  | _ => True

/-- The registry has answered honestly every time. -/
def Honest (present : String → Bool) : Deeds → Prop
  | [] => True
  | d :: h => d.IsHonest present h ∧ Honest present h

instance decidableIsHonest (present : String → Bool) (h : Deeds) :
    ∀ d : Deed Request Request.Answer Resource, Decidable (d.IsHonest present h)
  | .step i (.answered (.run c) r) => inferInstanceAs (Decidable (∀ ref ∈ c.inspected?,
      (Command.wentWell r = true → stocked present h ref = true) ∧
      (stocked present (upTo i h) ref = true → Command.wentWell r = true)))
  | .step _ (.answered (.pathExists _) _) | .step _ (.left _) | .event _ | .began _ | .asked _ _
  | .cancelled | .released _ | .joined _ _ => .isTrue trivial

instance decidableHonest (present : String → Bool) : ∀ h : Deeds, Decidable (Honest present h)
  | [] => .isTrue trivial
  | d :: h =>
      have := decidableHonest present h
      inferInstanceAs (Decidable (d.IsHonest present h ∧ Honest present h))

variable {present : String → Bool} {h h' later earlier past : Deeds} {ref : String} {i : Nat}

/-! ## Stock only grows -/

theorem stocked_mono (hsuffix : earlier <:+ h) (hs : stocked present earlier ref = true) :
    stocked present h ref = true := by
  rw [stocked, Bool.or_eq_true, List.any_eq_true] at hs ⊢
  exact hs.imp_right fun ⟨d, hd, hpushed⟩ => ⟨d, hsuffix.subset hd, hpushed⟩

theorem upTo_suffix (i : Nat) (h : Deeds) : upTo i h <:+ h := List.dropWhile_suffix _

/-- What is left out are deeds of others. -/
@[simp] theorem deedsOf_upTo (i : Nat) (h : Deeds) : deedsOf i (upTo i h) = deedsOf i h := by
  induction h with
  | nil => rfl
  | cons d h ih =>
      by_cases hd : d.job? = some i
      · simp [upTo, hd]
      · rw [deedsOf_cons, if_neg hd, ← ih]
        simp [upTo, hd]

/-- What came before the last deed of a job is part of what the job left behind. -/
theorem upTo_append_cons {mid : Deeds} {d : Deed Request Request.Answer Resource}
    (hmid : deedsOf i mid = []) (hd : d.job? = some i) (h : Deeds) :
    upTo i (mid ++ d :: h) = d :: h := by
  have hothers : ∀ e ∈ mid, decide (e.job? ≠ some i) = true := by
    simpa [deedsOf] using hmid
  rw [upTo, List.dropWhile_append_of_pos hothers]
  simp [hd]

/-! ## Honest answers -/

theorem Honest.of_append (hh : Honest present (later ++ earlier)) : Honest present earlier := by
  induction later with
  | nil => exact hh
  | cons d later ih => exact ih hh.2

theorem Honest.isHonest {d : Deed Request Request.Answer Resource}
    (hh : Honest present (later ++ d :: earlier)) : d.IsHonest present earlier :=
  hh.of_append.1

/-! ## Replies and what they tell -/

/-- The reply to job `i` that a deed is, if it is one. -/
def Deed.replyTo? (i : Nat) :
    Deed Request Request.Answer Resource → Option (Command × Except Failure Output)
  | .step k (.answered (.run c) r) => if k = i then some (c, r) else none
  | _ => none

theorem repliesTo_eq (i : Nat) (h : Deeds) :
    repliesTo i h = h.reverse.filterMap (Deed.replyTo? i) := by
  rw [repliesTo, Replies.ofSteps, stepsOf, stepsIn, deedsOf, ← List.filter_reverse,
    List.filterMap_filterMap, List.filterMap_filter]
  congr
  funext d
  cases d with
  | step k x =>
      cases x with
      | left m => simp [Deed.step?, Deed.replyTo?, Replies.reply?]
      | answered q a => cases q <;> simp [Deed.step?, Deed.job?, Deed.replyTo?, Replies.reply?]
  | _ => simp [Deed.step?, Deed.replyTo?]

theorem Deed.eq_of_replyTo? {d : Deed Request Request.Answer Resource} {c : Command}
    {r : Except Failure Output} (hd : d.replyTo? i = some (c, r)) :
    d = .step i (.answered (.run c) r) := by
  unfold replyTo? at hd
  split at hd
  · split at hd
    · cases hd
      subst_vars
      rfl
    · cases hd
  · cases hd

/-- What a job has been told is written down, after what it had been told before. -/
theorem exists_answered {before after : Replies} {c : Command} {r : Except Failure Output}
    (hr : repliesTo i h = before ++ (c, r) :: after) :
    ∃ later earlier, h = later ++ .step i (.answered (.run c) r) :: earlier ∧
      repliesTo i earlier = before := by
  rw [repliesTo_eq] at hr
  obtain ⟨l, l', hl, rfl, hafter⟩ := List.filterMap_eq_append_iff.mp hr
  obtain ⟨none, d, rest, rfl, hnone, hd, -⟩ := List.filterMap_eq_cons_iff.mp hafter
  obtain rfl := Deed.eq_of_replyTo? hd
  refine ⟨rest.reverse, none.reverse ++ l.reverse, ?_, ?_⟩
  · rw [← List.reverse_reverse h, hl]
    simp
  · rw [repliesTo_eq, List.reverse_append, List.reverse_reverse, List.reverse_reverse,
      List.filterMap_append, List.filterMap_eq_nil_iff.mpr hnone, List.append_nil]

/-- The replies to a job are those that have been written down. -/
theorem repliesTo_prefix (hsuffix : earlier <:+ h) : repliesTo i earlier <+: repliesTo i h := by
  obtain ⟨later, rfl⟩ := hsuffix
  rw [repliesTo_eq, repliesTo_eq, List.reverse_append, List.filterMap_append]
  exact List.prefix_append _ _

@[simp] theorem repliesTo_upTo (i : Nat) (h : Deeds) : repliesTo i (upTo i h) = repliesTo i h := by
  rw [repliesTo, stepsOf, deedsOf_upTo]
  rfl

/-- The command of a request, if it is to run one. -/
def Request.command? : Request → Option Command
  | .run c => some c
  | .pathExists _ => none

/-- The commands that job `i` has run or begun to run, in order. -/
def commandsOf (i : Nat) (h : Deeds) : List Command := (requestsOf i h).filterMap Request.command?

/-- If all that a job asked for has been answered, its commands are those that it had replies to. -/
theorem commandsOf_of_answered
    (ha : requestsOf i h = Course.answeredIn (stepsOf i h)) :
    commandsOf i h = (repliesTo i h).map Prod.fst := by
  rw [commandsOf, ha, Course.answeredIn, repliesTo, Replies.ofSteps, List.filterMap_filterMap,
    List.map_filterMap]
  congr
  funext step
  cases step with
  | left m => rfl
  | answered q a => cases q <;> rfl

/-- What has been pushed is there. -/
theorem stocked_of_pushed {c : Command} {r : Except Failure Output} (hr : (c, r) ∈ repliesTo i h)
    (hc : c.pushed? = some ref) (hwell : Command.wentWell r = true) :
    stocked present h ref = true := by
  obtain ⟨before, after, hsplit⟩ := List.append_of_mem hr
  obtain ⟨later, earlier, rfl, -⟩ := exists_answered hsplit
  simp [stocked, Deed.hasPushed, hc, hwell]

/-- What has been found is there. -/
theorem Honest.stocked_of_found (hh : Honest present h) {c : Command}
    {r : Except Failure Output} (hr : (c, r) ∈ repliesTo i h) (hc : c.inspected? = some ref)
    (hwell : Command.wentWell r = true) : stocked present h ref = true := by
  obtain ⟨before, after, hsplit⟩ := List.append_of_mem hr
  obtain ⟨later, earlier, rfl, -⟩ := exists_answered hsplit
  have hfound := (hh.isHonest ref hc).1 hwell
  exact stocked_mono ((List.suffix_cons _ _).trans (List.suffix_append _ _)) hfound

/-- What a job has pushed itself it finds. -/
theorem Honest.found_of_pushed (hh : Honest present h) {before after : Replies}
    {c c' : Command} {r r' : Except Failure Output}
    (hr : repliesTo i h = before ++ (c, r) :: after) (hc : c.inspected? = some ref)
    (hr' : (c', r') ∈ before) (hc' : c'.pushed? = some ref)
    (hwell : Command.wentWell r' = true) : Command.wentWell r = true := by
  obtain ⟨later, earlier, rfl, rfl⟩ := exists_answered hr
  refine (hh.isHonest ref hc).2 (stocked_of_pushed (i := i) ?_ hc' hwell)
  rwa [repliesTo_upTo]

/-- What was there before a run is found in it. -/
theorem Honest.found_of_stocked {u : Setup Request Request.Answer Resource}
    {s : State Request Request.Answer Resource} {scopes : Scopes} {caller : Nat}
    (hh : Honest present (s.history ++ past)) (hreach : Reachable u (start u scopes caller) s)
    {c : Command} {r : Except Failure Output} (hr : (c, r) ∈ repliesTo i s.history)
    (hc : c.inspected? = some ref) (hs : stocked present past ref = true) :
    Command.wentWell r = true := by
  obtain ⟨before, after, hsplit⟩ := List.append_of_mem hr
  obtain ⟨later, earlier, hhistory, -⟩ := exists_answered hsplit
  obtain ⟨mid, rest, rfl, hmid⟩ := hreach.exists_asked hhistory
  rw [hhistory, List.append_assoc, List.cons_append] at hh
  refine (hh.isHonest ref hc).2 ?_
  rw [List.append_assoc, List.cons_append, upTo_append_cons hmid rfl]
  exact stocked_mono ⟨.asked i (.run c) :: rest, rfl⟩ hs

/-! ## A world that obliges -/

/-- Is it no failure of a manifest to be applied? -/
def Deed.IsApplied : Deed Request Request.Answer Resource → Prop
  | .step _ (.answered (.run c) r) => c.isKubectl = true → Command.wentWell r = true
  | _ => True

/-- After the deeds of `past` the registry has answered honestly, and manifests could be applied. -/
structure Obliging (present : String → Bool) (past h : Deeds) : Prop where
  honest : Honest present (h ++ past)
  applied : ∀ d ∈ h, d.IsApplied

/-- An answer after these deeds: the registry shows what it has, and all else succeeds. -/
def supply (present : String → Bool) (h : Deeds) : (q : Request) → q.Answer
  | .run c =>
      match c.inspected? with
      | some ref => .ok ⟨some (if stocked present h ref then 0 else 1), "", ""⟩
      | none => .ok .silent
  | .pathExists _ => false

theorem wentWell_supply_of_inspected {c : Command} (hc : c.inspected? = some ref) :
    Command.wentWell (supply present h (.run c)) = stocked present h ref := by
  simp only [supply, hc, Command.wentWell, Output.success]
  cases stocked present h ref <;> rfl

theorem wentWell_supply {c : Command} (hc : c.inspected? = none) :
    Command.wentWell (supply present h (.run c)) = true := by
  simp only [supply, hc]
  rfl

namespace Obliging

theorem cons {d : Deed Request Request.Answer Resource} (ho : Obliging present past h)
    (hhonest : d.IsHonest present (h ++ past)) (happlied : d.IsApplied) :
    Obliging present past (d :: h) where
  honest := ⟨hhonest, ho.honest⟩
  applied := List.forall_mem_cons.mpr ⟨happlied, ho.applied⟩

/-- The world is as obliging as before if it has not been asked. -/
theorem append (ho : Obliging present past h) {new : Deeds}
    (hnew : ∀ d ∈ new, ∀ i q a, d ≠ .step i (.answered q a)) :
    Obliging present past (new ++ h) := by
  induction new with
  | nil => exact ho
  | cons d new ih =>
      obtain ⟨hd, hrest⟩ := List.forall_mem_cons.mp hnew
      have hquiet : ∀ h' : Deeds, d.IsHonest present h' ∧ d.IsApplied := by
        intro h'
        cases d with
        | step i x =>
            cases x with
            | left m => exact ⟨trivial, trivial⟩
            | answered q a => exact absurd rfl (hd i q a)
        | _ => exact ⟨trivial, trivial⟩
      exact (ih hrest).cons (hquiet _).1 (hquiet []).2

/-- It may answer as `supply` does. -/
theorem supply (ho : Obliging present past h) (i : Nat) (q : Request) :
    Obliging present past (.step i (.answered q (supply present (h ++ past) q)) :: h) := by
  cases q with
  | pathExists p => exact ho.cons trivial trivial
  | run c =>
      refine ho.cons (fun ref hc => ?_) fun hkubectl => wentWell_supply ?_
      · rw [wentWell_supply_of_inspected hc]
        exact ⟨id, stocked_mono (upTo_suffix i _)⟩
      · have hdocker : c.program ≠ "docker" := by
          rw [Command.isKubectl, decide_eq_true_eq] at hkubectl
          rw [hkubectl]
          decide
        simp [Command.inspected?, Command.isInspect, hdocker]

variable {u : Setup Request Request.Answer Resource}
  {s t : State Request Request.Answer Resource} {m : Move Request Request.Answer}

theorem move (ho : Obliging present past s.history) (hm : Moved u s m t)
    (hown : m.IsOwn fun _ => Fleet.supply present (s.history ++ past)) :
    Obliging present past t.history := by
  by_cases hreply : ∃ i answer, m = .reply i answer
  · obtain ⟨i, answer, rfl⟩ := hreply
    obtain rfl : answer = Fleet.supply present (s.history ++ past) := hown
    cases hm with
    | reply hi => exact ho.supply i _
  · obtain ⟨new, hnew, hdue⟩ := hm.history
    rw [hnew]
    refine ho.append fun d hd i q a heq => hreply ?_
    subst heq
    obtain ⟨-, answer, -, hm, -⟩ := hdue _ hd
    exact ⟨i, answer, hm⟩

/-- In an obliging world a smooth run can be brought to its end. -/
theorem exists_closed {scopes : Scopes} {caller : Nat} (ho : Obliging present past s.history)
    (hs : Smooth u (start u scopes caller) s) :
    ∃ t, Smooth u s t ∧ Obliging present past t.history ∧ t.closed = true := by
  have hclosed := hs.reachable.exists_closed
    (I := fun t => Smooth u s t ∧ Obliging present past t.history) ⟨.start, ho⟩
  obtain ⟨t, ⟨hsmooth, hoblige⟩, hc⟩ := hclosed fun t ht hkept hc => by
    obtain ⟨m, t', hown, hm⟩ :=
      ht.exists_own_move hc fun _ => Fleet.supply present (t.history ++ past)
    exact ⟨m, t', hown.isOutside, hm, hkept.1.move m _ hown hm,
      hkept.2.move (moved_of_move? hm) hown⟩
  exact ⟨t, hsmooth, hoblige, hc⟩

end Obliging

end Fleet

end Converge
