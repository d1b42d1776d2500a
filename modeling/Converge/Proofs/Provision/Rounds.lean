import Mathlib.Algebra.BigOperators.Group.List.Basic
import Converge.Proofs.Fleet.Summary
import Converge.Proofs.Provision.Stock

/-!
# Rounds

A unit whose images are all in the registry has little to do: it asks for every image when its turn
comes and applies every manifest after its images.  That is its round.  What a unit does is the
round, or a part of it, for as long as the registry has all that it is asked for.
-/

namespace Converge

open Replies

namespace ManifestNode

/-- The images are asked for, and then the manifest is applied. -/
def round (m : ManifestNode) : List Command :=
  m.images.map (fun i => i.image.inspect) ++ [m.manifest.command]

/-- Its images are found as they should be, and it is worked on. -/
def roundTally (m : ManifestNode) : Tally :=
  .enter + (m.images.map fun _ => .enter + .rest).sum + .work

end ManifestNode

namespace UnitNode

/-- The commands of a unit whose images are all in the registry. -/
def round (u : UnitNode) : List Command :=
  u.images.map (fun i => i.image.inspect) ++ u.manifests.flatMap ManifestNode.round

def roundTally (u : UnitNode) : Tally :=
  .enter + ((u.images.map fun _ => .enter + .rest).sum +
    (u.manifests.map ManifestNode.roundTally).sum)

theorem roundTally_eq (u : UnitNode) : u.roundTally =
    ⟨1 + u.visited.length + u.manifests.length, u.manifests.length, u.visited.length⟩ := by
  have himages : ∀ is : List ImageNode,
      (is.map fun _ => Tally.enter + Tally.rest).sum = ⟨is.length, 0, is.length⟩ := by
    intro is
    refine (Tally.sum_map (fun _ => 1) (fun _ => 0) (fun _ => 1) is).trans ?_
    simp
  have hmanifest : ∀ m : ManifestNode,
      m.roundTally = ⟨1 + m.images.length, 1, m.images.length⟩ := by
    intro m
    rw [ManifestNode.roundTally, himages]
    ext <;> simp [Tally.enter, Tally.work]
  have hmanifests : (u.manifests.map ManifestNode.roundTally).sum =
      ⟨(u.manifests.map fun m => 1 + m.images.length).sum, (u.manifests.map fun _ => 1).sum,
        (u.manifests.map fun m => m.images.length).sum⟩ := by
    rw [← Tally.sum_map, funext hmanifest]
  have hlength : u.visited.length =
      u.images.length + (u.manifests.map fun m => m.images.length).sum := by
    rw [visited, List.length_append, List.length_flatMap]
  have hentered : (u.manifests.map fun m => 1 + m.images.length).sum =
      u.manifests.length + (u.manifests.map fun m => m.images.length).sum := by
    simp [List.sum_map_add]
  rw [roundTally, himages, hmanifests, hentered, hlength]
  ext
  case visited => simp [Tally.enter]; omega
  case applied => simp [Tally.enter]
  case satisfied => simp [Tally.enter]

/-- A round builds nothing, pushes nothing and fetches nothing. -/
theorem quiet_of_mem_round {u : UnitNode} {cmd : Command} (h : cmd ∈ u.round) :
    cmd.isBuild = false ∧ cmd.isPush = false ∧ cmd.isGit = false := by
  rcases List.mem_append.mp h with h | h
  · obtain ⟨i, -, rfl⟩ := List.mem_map.mp h
    exact ⟨rfl, rfl, rfl⟩
  · obtain ⟨m, -, h⟩ := List.mem_flatMap.mp h
    rcases List.mem_append.mp h with h | h
    · obtain ⟨i, -, rfl⟩ := List.mem_map.mp h
      exact ⟨rfl, rfl, rfl⟩
    · obtain rfl := List.mem_singleton.mp h
      exact ⟨rfl, rfl, rfl⟩

/-- Was an image of the unit not found? -/
def Missed (u : UnitNode) (past : Replies) : Prop :=
  ∃ i ∈ u.visited, ∃ r, (i.image.inspect, r) ∈ past ∧ Command.wentWell r = false

end UnitNode

/-- Could a manifest not be applied? -/
def Replies.Refused (past : Replies) : Prop :=
  ∃ x ∈ past, x.1.isKubectl = true ∧ Command.wentWell x.2 = false

namespace UnitNode

/-- May the unit run the command after these replies?  It keeps to its round unless an image was
not found. -/
def mayRepeat (u : UnitNode) (past : Replies) (c : Command) : Prop :=
  u.Missed past ∨ past.map Prod.fst ++ [c] <+: u.round

/-- The monitor of a round. -/
abbrev repeats (u : UnitNode) :
    Monitor Command.Request Command.Request.Answer Resource Replies :=
  .ofReplies u.mayRepeat

variable {α β : Type}

/-- The commands up to now are `done`, and they came to `a`; or else the work was cancelled or a
manifest could not be applied.  Nothing is said if an image was not found. -/
def Repeated (u : UnitNode) (done : List Command) (a : α) (past : Replies) (r : Except Fault α) :
    Prop :=
  u.Missed past ∨ (∀ b, r = .ok b → past.map Prod.fst = done ∧ b = a) ∧
    ∀ f, r = .error f → f.isCancellation = true ∨ past.Refused

variable {u : UnitNode} {past : Replies} {done todo done' : List Command} {a : α} {b : β}

theorem Missed.mono {past' : Replies} (h : u.Missed past) (hp : past <+: past') :
    u.Missed past' := by
  obtain ⟨i, hi, r, hr, hfailed⟩ := h
  exact ⟨i, hi, r, hp.subset hr, hfailed⟩

/-- Once an image was not found, anything may happen. -/
theorem Missed.meets (h : u.Missed past)
    (c : Course Command.Request Command.Request.Answer Resource (Except Fault α)) :
    c.Meets u.repeats (u.Repeated done a) past := by
  refine Course.Meets.of_free (p := u.Missed) ?_ (fun _ _ h => .inl h) (fun _ _ h => .inl h) c h
  exact fun _ _ h => h.mono (List.prefix_append _ _)

namespace Repeated

theorem ok (h : past.map Prod.fst = done) : u.Repeated done a past (.ok a) := by
  refine .inr ⟨fun b hb => ?_, nofun⟩
  cases hb
  exact ⟨h, rfl⟩

theorem error {f : Fault} (h : f.isCancellation = true ∨ past.Refused) :
    u.Repeated done a past (.error f) := by
  refine .inr ⟨nofun, fun f' hf => ?_⟩
  cases hf
  exact h

/-- One part of a round after another. -/
theorem andThen {c : Course Command.Request Command.Request.Answer Resource (Except Fault α)}
    {f : α → Course Command.Request Command.Request.Answer Resource (Except Fault β)}
    (h : c.Meets u.repeats (u.Repeated done a) past)
    (hf : ∀ y, y.map Prod.fst = done → (f a).Meets u.repeats (u.Repeated done' b) y) :
    (c.andThen f).Meets u.repeats (u.Repeated done' b) past := by
  refine h.andThen (fun y a' hy => ?_) fun y e hy => ?_
  · rcases hy with hmissed | ⟨hok, -⟩
    · exact hmissed.meets _
    · obtain ⟨hdone, rfl⟩ := hok a' rfl
      exact hf y hdone
  · rcases hy with hmissed | ⟨-, herror⟩
    · exact .inl hmissed
    · exact .error (herror e rfl)

end Repeated

variable {policy : Policy} {above : Address}

/-! ## The work on a resource -/

theorem onlyAsks_repeats (u : UnitNode) : u.repeats.OnlyAsks := Monitor.ofReplies_onlyAsks _

/-- A command of the round may be run. -/
theorem mayRepeat_next {c : Command} (hu : u.round = done ++ c :: todo)
    (hpast : past.map Prod.fst = done) : u.mayRepeat past c := by
  right
  rw [hpast, hu]
  exact ⟨todo, by simp⟩

/-- An image is found, or it is missed. -/
theorem isSatisfied_repeated {here : Address} {i : ImageNode} (hi : i ∈ u.visited)
    (hu : u.round = done ++ i.image.inspect :: todo) (hpast : past.map Prod.fst = done) :
    (Tree.isSatisfied Resource.provider here (.image i.image)).Meets u.repeats
      (u.Repeated (done ++ [i.image.inspect]) true) past := by
  have hwork : (Course.ofPlan i.image.satisfied).Meets u.repeats
      (fun y r => u.Missed y ∨ r = .ok true ∧ y.map Prod.fst = done ++ [i.image.inspect]) past := by
    refine ⟨mayRepeat_next hu hpast, fun r => ?_⟩
    cases r with
    | error f => exact .inl ⟨i, hi, .error f, by simp [Monitor.ofReplies], rfl⟩
    | ok o =>
        cases ho : o.success with
        | false => exact .inl ⟨i, hi, .ok o, by simp [Monitor.ofReplies], ho⟩
        | true => exact .inr ⟨congrArg Except.ok ho, by simp [Monitor.ofReplies, hpast]⟩
  refine (hwork.call u.onlyAsks_repeats .satisfied (.image i.image)).bind fun y r hy => ?_
  rcases hy with hmissed | ⟨rfl, hdone⟩
  · exact hmissed.meets _
  · exact Repeated.ok hdone

/-- A manifest is applied, or it is refused. -/
theorem applyResource_repeated {here : Address} {m : Manifest}
    (hu : u.round = done ++ m.command :: todo) (hpast : past.map Prod.fst = done) :
    (Tree.applyResource Resource.provider here (.manifest m)).Meets u.repeats
      (u.Repeated (done ++ [m.command]) ()) past := by
  have hwork : (Course.ofPlan m.apply).Meets u.repeats
      (fun y r => r = .ok () ∧ y.map Prod.fst = done ++ [m.command] ∨
        (∃ f, r = .error f) ∧ y.Refused) past := by
    refine Command.perform_meets _ (mayRepeat_next hu hpast) (fun o ho => .inl ⟨rfl, ?_⟩) ?_
    · rw [List.map_append, hpast]
      rfl
    · exact fun r f hfailed => .inr ⟨⟨f, rfl⟩, (m.command, r), by simp, rfl, hfailed⟩
  refine .look u.onlyAsks_repeats fun cancelled => ?_
  cases cancelled with
  | true => exact Repeated.error (.inl rfl)
  | false =>
      refine .leave u.onlyAsks_repeats ?_
      refine (hwork.call u.onlyAsks_repeats .apply (.manifest m)).bind fun y r hy => ?_
      rcases hy with ⟨rfl, hdone⟩ | ⟨⟨f, rfl⟩, hrefused⟩
      · exact .leave u.onlyAsks_repeats (Repeated.ok hdone)
      · exact .look u.onlyAsks_repeats fun _ => Repeated.error (.inr hrefused)

/-! ## Walks -/

/-- A node that is found cancelled at once is no part of a round that goes on. -/
theorem look_repeated {here : Address}
    {c : Course Command.Request Command.Request.Answer Resource (Except Fault α)}
    (h : c.Meets u.repeats (u.Repeated done a) past) :
    (Course.look fun cancelled =>
      if cancelled then .done (.error (.cancelled here)) else c).Meets u.repeats
        (u.Repeated done a) past := by
  refine .look u.onlyAsks_repeats fun cancelled => ?_
  cases cancelled with
  | true => exact Repeated.error (.inl rfl)
  | false => exact h

/-- An image is found as it should be. -/
theorem image_repeated {i : ImageNode} (hi : i ∈ u.visited)
    (hu : u.round = done ++ [i.image.inspect] ++ todo) (hpast : past.map Prod.fst = done) :
    (i.design.tree.convergeAt Resource.provider .skipSubtree above).Meets u.repeats
      (u.Repeated (done ++ [i.image.inspect]) (.enter + .rest)) past := by
  rw [ImageNode.tree_design, Tree.convergeAt_resource]
  rw [List.append_assoc] at hu
  refine look_repeated (Repeated.andThen (isSatisfied_repeated hi hu hpast) fun y hy => ?_)
  exact .leave u.onlyAsks_repeats (Repeated.ok hy)

/-- Several nodes, one after the other. -/
theorem all_repeated {ι : Type} {tree : ι → Tree Resource} {commands : ι → List Command}
    {tally : ι → Tally} {xs : List ι}
    (hxs : ∀ x ∈ xs, ∀ done todo past, u.round = done ++ commands x ++ todo →
      past.map Prod.fst = done →
      ((tree x).convergeAt Resource.provider policy above).Meets u.repeats
        (u.Repeated (done ++ commands x) (tally x)) past)
    (hu : u.round = done ++ xs.flatMap commands ++ todo) (hpast : past.map Prod.fst = done) :
    (Tree.convergeAll Resource.provider policy above (xs.map tree)).Meets u.repeats
      (u.Repeated (done ++ xs.flatMap commands) (xs.map tally).sum) past := by
  induction xs generalizing done past with
  | nil =>
      simp only [List.map_nil, Tree.convergeAll_nil]
      exact Repeated.ok (by simpa using hpast)
  | cons x xs ih =>
      rw [List.forall_mem_cons] at hxs
      rw [List.flatMap_cons, ← List.append_assoc] at hu ⊢
      simp only [List.map_cons, Tree.convergeAll_cons, List.sum_cons]
      have hx := hxs.1 done (xs.flatMap commands ++ todo) past (by simpa using hu) hpast
      refine Repeated.andThen hx fun y hy => ?_
      exact Repeated.andThen (ih hxs.2 hu hy) fun z hz => Repeated.ok hz

/-- Images are found one after the other. -/
theorem images_repeated {is : List ImageNode} (his : ∀ i ∈ is, i ∈ u.visited)
    (hu : u.round = done ++ is.map (fun i => i.image.inspect) ++ todo)
    (hpast : past.map Prod.fst = done) :
    (Tree.convergeAll Resource.provider .skipSubtree above
      (is.map fun i => i.design.tree)).Meets u.repeats
        (u.Repeated (done ++ is.map fun i => i.image.inspect)
          (is.map fun _ => .enter + .rest).sum) past := by
  rw [List.map_eq_flatMap] at hu ⊢
  exact all_repeated (fun i hi _ _ _ hu hpast => image_repeated (his i hi) hu hpast) hu hpast

/-- A manifest is applied after its images. -/
theorem manifest_repeated {m : ManifestNode} (hm : m ∈ u.manifests)
    (hu : u.round = done ++ m.round ++ todo) (hpast : past.map Prod.fst = done) :
    (m.design.tree.convergeAt Resource.provider .skipSubtree above).Meets u.repeats
      (u.Repeated (done ++ m.round) m.roundTally) past := by
  have himages : ∀ i ∈ m.images, i ∈ u.visited := fun i hi =>
    List.mem_append_right _ (List.mem_flatMap.mpr ⟨m, hm, hi⟩)
  rw [ManifestNode.round, ← List.append_assoc] at hu ⊢
  rw [List.append_assoc _ [_]] at hu
  rw [ManifestNode.tree_design, Tree.convergeAt_resource, ManifestNode.roundTally]
  refine look_repeated ?_
  have hunsatisfied : (Tree.isSatisfied Resource.provider (above.child m.name)
      (.manifest m.manifest)).Meets u.repeats (u.Repeated done false) past :=
    .leave u.onlyAsks_repeats (.leave u.onlyAsks_repeats (Repeated.ok hpast))
  refine Repeated.andThen hunsatisfied fun y hy => ?_
  refine Repeated.andThen (images_repeated himages hu hy) fun z hz => ?_
  exact Repeated.andThen (applyResource_repeated hu hz) fun w hw => Repeated.ok hw

/-- A unit goes its round. -/
theorem converge_repeated (u : UnitNode) :
    (u.design.tree.converge Resource.provider .skipSubtree).Meets u.repeats
      (u.Repeated u.round u.roundTally) [] := by
  have hwalk : (u.design.tree.convergeAt Resource.provider .skipSubtree .top).Meets u.repeats
      (u.Repeated u.round u.roundTally) [] := by
    have himages : ∀ i ∈ u.images, i ∈ u.visited := fun i hi => List.mem_append_left _ hi
    have hround : u.round = [] ++ u.images.map (fun i => i.image.inspect) ++
        u.manifests.flatMap ManifestNode.round := rfl
    rw [tree_design, Tree.convergeAt_bare, Tree.convergeAll_append, roundTally]
    refine look_repeated (Repeated.andThen ?_ fun z hz => Repeated.ok hz)
    refine Repeated.andThen (images_repeated himages hround rfl) fun y hy => ?_
    have hmanifests : ∀ m ∈ u.manifests, ∀ done todo past, u.round = done ++ m.round ++ todo →
        past.map Prod.fst = done →
        (m.design.tree.convergeAt Resource.provider .skipSubtree (.child .top u.name)).Meets
          u.repeats (u.Repeated (done ++ m.round) m.roundTally) past :=
      fun m hm _ _ _ hu hpast => manifest_repeated hm hu hpast
    have hrest : u.round = [] ++ u.images.map (fun i => i.image.inspect) ++
        u.manifests.flatMap ManifestNode.round ++ [] := by rw [← hround, List.append_nil]
    exact Repeated.andThen (all_repeated hmanifests hrest hy) fun z hz => Repeated.ok hz
  refine .leave u.onlyAsks_repeats (hwalk.bind fun y r hr => ?_)
  rcases hr with hmissed | hr
  · exact hmissed.meets _
  · cases r with
    | ok tally => exact .leave u.onlyAsks_repeats (.inr hr)
    | error f =>
        rw [Tree.concluded]
        split
        · exact .inr hr
        · exact .leave u.onlyAsks_repeats (.inr hr)

end UnitNode

end Converge
