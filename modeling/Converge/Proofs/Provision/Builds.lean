import Converge.Proofs.Provision.Stock

/-!
# Nothing is built twice

A unit builds an image only when the registry has just denied having it.  What the unit has built
for a reference before it has pushed as well, or else its work would have ended; so if the registry
is honest, nothing was built for the reference before.
-/

namespace Converge

open Fleet

namespace Replies

variable {past past' : Replies} {c : Command} {r : Except Failure Output} {ref : String}

/-- Has something been built for the reference? -/
def Built (past : Replies) (ref : String) : Prop := ∃ x ∈ past, x.1.built? = some ref

/-- Has it been pushed with success? -/
def Pushed (past : Replies) (ref : String) : Prop :=
  ∃ x ∈ past, x.1.pushed? = some ref ∧ Command.wentWell x.2 = true

/-- Has the registry denied having what it had been given? -/
def Denied (past : Replies) : Prop :=
  ∃ (before after : Replies) (c : Command) (r : Except Failure Output) (ref : String),
    past = before ++ (c, r) :: after ∧ c.inspected? = some ref ∧ before.Pushed ref ∧
    Command.wentWell r = false

/-- Nothing has been built for the reference, unless the registry has not told the truth. -/
def Unbuilt (ref : String) (past : Replies) : Prop := past.Denied ∨ ¬ past.Built ref

/-- What has been built has been pushed, unless the registry has not told the truth. -/
def Tidy (past : Replies) : Prop := past.Denied ∨ ∀ ref, past.Built ref → past.Pushed ref

theorem Pushed.mono (h : past.Pushed ref) (hp : past <+: past') : past'.Pushed ref := by
  obtain ⟨x, hx, hpushed⟩ := h
  exact ⟨x, hp.subset hx, hpushed⟩

theorem Denied.mono (h : past.Denied) (hp : past <+: past') : past'.Denied := by
  obtain ⟨before, after, c, r, ref, rfl, hdenied⟩ := h
  obtain ⟨further, rfl⟩ := hp
  exact ⟨before, after ++ further, c, r, ref, by simp, hdenied⟩

@[simp] theorem built_append : (past ++ [(c, r)]).Built ref ↔
    past.Built ref ∨ c.built? = some ref := by
  simp [Built, or_and_right, exists_or]

theorem Unbuilt.other (h : past.Unbuilt ref) (hc : c.built? = none) :
    (past ++ [(c, r)]).Unbuilt ref := by
  refine h.imp (·.mono (List.prefix_append _ _)) fun hnot => ?_
  simpa [hc] using hnot

theorem Tidy.other (h : past.Tidy) (hc : c.built? = none) : (past ++ [(c, r)]).Tidy := by
  refine h.imp (·.mono (List.prefix_append _ _)) fun htidy ref hbuilt => ?_
  exact (htidy ref (by simpa [hc] using hbuilt)).mono (List.prefix_append _ _)

/-- An image that the registry does not have has not been built. -/
theorem Tidy.unbuilt (h : past.Tidy) (i : Image) (hr : Command.wentWell r = false) :
    (past ++ [(i.inspect, r)]).Unbuilt i.reference := by
  rcases h with hdenied | htidy
  · exact .inl (hdenied.mono (List.prefix_append _ _))
  · refine or_iff_not_imp_right.mpr fun hbuilt => ?_
    rw [not_not, built_append] at hbuilt
    have hpushed := htidy i.reference (hbuilt.resolve_right nofun)
    exact ⟨past, [], i.inspect, r, i.reference, rfl, rfl, hpushed, hr⟩

/-- An image that has been built and pushed is as it should be. -/
theorem Tidy.pushed {r' : Except Failure Output} (h : past.Tidy) (i : Image)
    (hr' : Command.wentWell r' = true) : (past ++ [(i.build, r)] ++ [(i.push, r')]).Tidy := by
  have hgrown : past <+: past ++ [(i.build, r)] ++ [(i.push, r')] := by simp [List.append_assoc]
  refine h.imp (·.mono hgrown) fun htidy ref hbuilt => ?_
  rw [built_append, built_append] at hbuilt
  rcases hbuilt.resolve_right nofun with hbefore | hnow
  · exact (htidy ref hbefore).mono hgrown
  · obtain rfl := Option.some.inj hnow
    exact ⟨(i.push, r'), by simp, rfl, hr'⟩

end Replies

open Replies

/-- May the command be run after these replies?  Nothing is built for a reference twice, unless the
registry has not told the truth. -/
def mayBuild (past : Replies) (c : Command) : Prop := ∀ ref ∈ c.built?, past.Unbuilt ref

theorem mayBuild_other {past : Replies} {c : Command} (hc : c.built? = none) : mayBuild past c := by
  intro ref href
  rw [hc] at href
  cases href

/-- The monitor of what is built. -/
abbrev builds : Monitor Command.Request Command.Request.Answer Resource Replies :=
  .ofReplies mayBuild

theorem Command.built?_of_isGit {c : Command} (hc : c.isGit = true) : c.built? = none := by
  rw [isGit, decide_eq_true_eq] at hc
  simp [built?, isBuild, hc]

theorem unminded_tidy : UnitNode.Unminded mayBuild Tidy where
  may _ _ hgit := mayBuild_other (Command.built?_of_isGit hgit)
  keep _ _ _ hgit h := h.other (Command.built?_of_isGit hgit)

theorem unminded_unbuilt (ref : String) :
    UnitNode.Unminded mayBuild fun y => y.Tidy ∧ y.Unbuilt ref where
  may _ _ hgit := mayBuild_other (Command.built?_of_isGit hgit)
  keep _ _ _ hgit h :=
    ⟨h.1.other (Command.built?_of_isGit hgit), h.2.other (Command.built?_of_isGit hgit)⟩

variable {past : Replies} {policy : Policy} {above : Address}

/-! ## Walks -/

/-- Asking for an image tells whether it may be built. -/
theorem Image.satisfied_tidy (i : Image) (h : past.Tidy) :
    (Course.ofPlan i.satisfied).Secures builds
      (fun y b => y.Tidy ∧ (b = false → y.Unbuilt i.reference)) past := by
  refine Command.run_secures (mayBuild_other rfl) fun o => ⟨h.other rfl, fun ho => ?_⟩
  exact h.unbuilt i ho

theorem Image.apply_tidy (i : Image) (h : past.Tidy) (hunbuilt : past.Unbuilt i.reference) :
    (Course.ofPlan i.apply).Secures builds (fun y _ => y.Tidy) past := by
  unfold Image.apply
  rw [Course.ofPlan_andThen]
  refine Course.Secures.andThen (p := fun y _ => ∃ r, y = past ++ [(i.build, r)]) ?_ ?_
  · refine Command.perform_secures _ (fun ref href => ?_) fun o _ => ⟨_, rfl⟩
    obtain rfl := Option.some.inj href
    exact hunbuilt
  · rintro _ _ ⟨r, rfl⟩
    exact Command.perform_secures _ (mayBuild_other rfl) fun o ho => h.pushed i ho

theorem ImageNode.convergeAt_tidy (i : ImageNode) (h : past.Tidy) :
    (i.design.tree.convergeAt Resource.provider policy above).Secures builds
      (fun y _ => y.Tidy) past := by
  rw [tree_design]
  refine Tree.resource_secures (Monitor.ofReplies_onlyAsks _)
    (fun y => y.Tidy ∧ y.Unbuilt i.image.reference) (i.image.satisfied_tidy h) ?_ ?_ ?_ ?_
  · exact fun y hy _ => hy.1
  · exact fun y hy => (UnitNode.source_secures unminded_tidy i.source hy.1).mono fun z _ hz => hz.1
  · intro y hy
    refine (UnitNode.source_secures (unminded_unbuilt i.image.reference) i.source ?_).mono
      fun z _ hz => hz.1
    exact ⟨hy.1, hy.2 rfl⟩
  · exact fun z hz => i.image.apply_tidy hz.1 hz.2

theorem ManifestNode.convergeAt_tidy (m : ManifestNode) (h : past.Tidy) :
    (m.design.tree.convergeAt Resource.provider policy above).Secures builds
      (fun y _ => y.Tidy) past := by
  have hsat : (Course.ofPlan m.manifest.satisfied).Secures builds
      (fun y b => b = false ∧ y.Tidy) past := .ok ⟨rfl, h⟩
  rw [tree_design]
  refine Tree.resource_secures (Monitor.ofReplies_onlyAsks _) Tidy hsat ?_ ?_ ?_ ?_
  · exact fun y hy => by cases hy.1
  · exact fun y hy => by cases hy.1
  · refine fun y hy => Tree.all_secures (fun t ht z hz => ?_) hy.2
    obtain ⟨i, -, rfl⟩ := List.mem_map.mp ht
    exact i.convergeAt_tidy hz
  · exact fun z hz => Command.perform_secures _ (mayBuild_other rfl) fun o _ => hz.other rfl

/-- A unit builds nothing twice. -/
theorem UnitNode.converge_tidy (u : UnitNode) (policy : Policy) :
    (u.design.tree.converge Resource.provider policy).Secures builds (fun y _ => y.Tidy) [] := by
  have hnew : Tidy [] := .inr (by simp [Built])
  refine Tree.converge_secures (Monitor.ofReplies_onlyAsks _) ?_
  rw [tree_design]
  refine Tree.bare_secures (Monitor.ofReplies_onlyAsks _) ?_
  refine Tree.all_secures (fun t ht y hy => ?_) hnew
  rcases List.mem_append.mp ht with ht | ht
  · obtain ⟨i, -, rfl⟩ := List.mem_map.mp ht
    exact i.convergeAt_tidy hy
  · obtain ⟨m, -, rfl⟩ := List.mem_map.mp ht
    exact m.convergeAt_tidy hy

/-! ## Runs -/

namespace Fleet

variable {u : Setup Command.Request Command.Request.Answer Resource}
  {s : State Command.Request Command.Request.Answer Resource} {scopes : Scopes} {caller i : Nat}
  {present : String → Bool}

/-- The references that job `i` has built for, in order. -/
def builtBy (i : Nat) (h : Deeds) : List String := (commandsOf i h).filterMap Command.built?

/-- A job builds by asking for it. -/
theorem builtBy_cons (i : Nat) (d : Deed Command.Request Command.Request.Answer Resource)
    (h : Deeds) : builtBy i (d :: h) = builtBy i h ∨
      ∃ c ref, d = .asked i (.run c) ∧ c.built? = some ref ∧
        builtBy i (d :: h) = builtBy i h ++ [ref] := by
  rw [builtBy, commandsOf, List.filterMap_filterMap]
  rcases requestsOf_cons i d h with hsame | ⟨q, rfl, hnew⟩
  · rw [hsame, ← List.filterMap_filterMap]
    exact .inl rfl
  · rw [hnew, List.filterMap_append, ← List.filterMap_filterMap]
    cases q with
    | pathExists p => exact .inl (List.append_nil _)
    | run c =>
        cases hc : c.built? with
        | none => exact .inl (by simp [Request.command?, hc, builtBy, commandsOf])
        | some ref =>
            exact .inr ⟨c, ref, rfl, hc, by simp [Request.command?, hc, builtBy, commandsOf]⟩

/-- An honest registry never denies having what it has been given. -/
theorem Honest.not_denied {h : Deeds} (hh : Honest present h) : ¬ (repliesTo i h).Denied := by
  rintro ⟨before, after, c, r, ref, hsplit, hc, ⟨x, hx, hpushed, hwell⟩, hfailed⟩
  rw [hh.found_of_pushed hsplit hc hx hpushed hwell] at hfailed
  cases hfailed

/-- No job builds for a reference twice, if the registry is honest. -/
theorem Reachable.nodup_builtBy (h : Reachable u (Fleet.start u scopes caller) s)
    (hc : (u.course i).Secures builds (fun y _ => y.Tidy) [])
    (hh : Honest present s.history) : (builtBy i s.history).Nodup := by
  have hall : ∀ later earlier, s.history = later ++ earlier → (builtBy i earlier).Nodup := by
    intro later earlier hsplit
    induction earlier generalizing later with
    | nil => exact List.nodup_nil
    | cons d earlier ih =>
        have hrest := ih (later ++ [d]) (by simpa using hsplit)
        rcases builtBy_cons i d earlier with hsame | ⟨c, ref, rfl, href, hnew⟩
        · rwa [hsame]
        · have hmay := h.may_ask (Monitor.ofReplies_onlyAsks _).blind hc hsplit
          rw [Monitor.after_ofReplies, List.nil_append] at hmay
          rw [hsplit] at hh
          have hunbuilt := (hmay ref href).resolve_left hh.of_append.2.not_denied
          have hcommands := commandsOf_of_answered (h.answered_before hsplit)
          rw [hnew]
          refine List.nodup_append.mpr ⟨hrest, List.nodup_singleton ref, fun x hx y hy hxy => ?_⟩
          obtain rfl := List.mem_singleton.mp hy
          subst hxy
          rw [builtBy, hcommands, List.filterMap_map, List.mem_filterMap] at hx
          exact hunbuilt hx
  exact hall [] s.history rfl

end Fleet

end Converge
