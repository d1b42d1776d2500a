import Converge.Declaration
import Converge.Proofs.Provision.Replies

/-!
# What comes before what

A unit works on its images one after the other and applies a manifest only when all of the images
that it lists are in the registry; an image with a source is built only when its source is checked
out.  Each image is asked for once when its turn comes, so the number of images asked for says
which image the unit is at, and the number of manifests applied says which manifest.
-/

namespace Converge

open Replies

/-! ## Trees of declared nodes -/

@[simp] theorem Blueprint.trees_eq_map {H R : Type} (bs : List (Blueprint H R)) :
    trees bs = bs.map tree := by
  induction bs with
  | nil => rw [trees]; rfl
  | cons b bs ih => rw [trees, ih]; rfl

/-- The tree of a checkout is a single node. -/
def Checkout.node (c : Checkout) : Tree Resource :=
  .node Declaration.checkoutName (some (.checkout c)) []

theorem ImageNode.tree_design (i : ImageNode) : i.design.tree =
    .node i.name (some (.image i.image)) (i.source.toList.map Checkout.node) := by
  simp [design, Declaration.above, Blueprint.tree, Declaration.name, Declaration.resource,
    Checkout.node, Function.comp_def]

theorem ManifestNode.tree_design (m : ManifestNode) : m.design.tree =
    .node m.name (some (.manifest m.manifest)) (m.images.map fun i => i.design.tree) := by
  simp [design, Declaration.above, Blueprint.tree, Declaration.name, Declaration.resource]

theorem UnitNode.tree_design (u : UnitNode) : u.design.tree =
    .node u.name none (u.images.map (fun i => i.design.tree) ++
      u.manifests.map fun m => m.design.tree) := by
  simp [design, Declaration.above, Blueprint.tree, Declaration.name, Declaration.resource,
    Function.comp_def]

/-! ## What a unit may run

The monitor knows nothing of the tree; it knows the replies so far.  What ties the two together is
`At n k`: the walk stands before the image at place `n` in the order of visits and before the
manifest at place `k`.  Which images are in the registry is carried beside that, and only grows. -/

namespace UnitNode

/-- The images of a unit in the order in which they are worked on. -/
def visited (u : UnitNode) : List ImageNode := u.images ++ u.manifests.flatMap ManifestNode.images

/-- May the unit run the command after these replies? -/
def mayRun (u : UnitNode) (past : Replies) (c : Command) : Prop :=
  (c.isKubectl = true → ∃ m, u.manifests[applied past]? = some m ∧ c = m.manifest.command ∧
    ∀ i ∈ m.images, Ready past i.image) ∧
  (c.isBuild = true → ∃ n i, inspected past = n + 1 ∧ u.visited[n]? = some i ∧
    c = i.image.build ∧ ∀ src, i.source = some src → Sourced past src)

/-- The monitor of the work on a unit. -/
abbrev order (u : UnitNode) :
    Monitor Command.Request Command.Request.Answer Resource Replies :=
  .ofReplies u.mayRun

variable {u : UnitNode} {past : Replies} {n k : Nat}

theorem mayRun_other {c : Command} (hk : c.isKubectl = false) (hb : c.isBuild = false) :
    u.mayRun past c := by
  simp [mayRun, hk, hb]

theorem order_onlyAsks (u : UnitNode) : u.order.OnlyAsks := Monitor.ofReplies_onlyAsks _

variable {policy : Policy} {above : Address}

/-! ## Checkouts

The work on a checkout is done with git alone, which no monitor of images and manifests minds. -/

/-- Git commands may be run at any time, and keep `p`. -/
structure Unminded (mayRun : Replies → Command → Prop) (p : Replies → Prop) : Prop where
  may : ∀ y c, c.isGit = true → mayRun y c
  keep : ∀ y c r, c.isGit = true → p y → p (y ++ [(c, r)])

section Checkouts

variable {mayRun : Replies → Command → Prop} {p : Replies → Prop} (G : Unminded mayRun p)
include G

theorem checkout_satisfied_secures (c : Checkout) (hp : p past) :
    (Course.ofPlan c.satisfied).Secures (.ofReplies mayRun)
      (fun y b => p y ∧ (b = true → Sourced y c)) past := by
  unfold Checkout.satisfied
  split
  · rename_i hhash
    refine pathExists_secures fun cloned => ?_
    cases cloned with
    | false => exact .ok ⟨hp, fun h => by cases h⟩
    | true =>
        refine Command.run_secures (G.may _ _ rfl) fun o => ?_
        refine ⟨G.keep _ _ _ rfl hp, fun hfound => ?_⟩
        rw [Bool.and_eq_true, decide_eq_true_eq] at hfound
        exact .inl ⟨hhash, o, by simp, hfound⟩
  · exact .ok ⟨hp, fun h => by cases h⟩

theorem checkout_apply_secures (c : Checkout) (hp : p past) :
    (Course.ofPlan c.apply).Secures (.ofReplies mayRun) (fun y _ => p y ∧ Sourced y c) past := by
  unfold Checkout.apply
  refine pathExists_secures fun cloned => ?_
  rw [Course.ofPlan_andThen]
  refine Course.Secures.andThen (p := fun y _ => p y) ?_ fun y _ hy => ?_
  · split
    · exact .ok hp
    · exact Command.perform_secures _ (G.may _ _ rfl) fun o _ => G.keep _ _ _ rfl hp
  · rw [Course.ofPlan_andThen]
    refine Course.Secures.andThen (p := fun y _ => p y) ?_ fun z _ hz => ?_
    · split
      · exact Command.perform_secures _ (G.may _ _ rfl) fun o _ => G.keep _ _ _ rfl hy
      · exact .ok hy
    · refine Command.perform_secures _ (G.may _ _ rfl) fun o ho => ?_
      exact ⟨G.keep _ _ _ rfl hz, .inr (succeeded_append ho)⟩

/-- When the walk over a checkout has gone through, the checkout is at its revision. -/
theorem checkout_secures (c : Checkout) (hp : p past) :
    (c.node.convergeAt Resource.provider policy above).Secures (.ofReplies mayRun)
      (fun y _ => p y ∧ Sourced y c) past := by
  refine Tree.resource_secures (Monitor.ofReplies_onlyAsks _) p
    (checkout_satisfied_secures G c hp) ?_ ?_ ?_ ?_
  · exact fun y hy _ => ⟨hy.1, hy.2 rfl⟩
  · exact fun y hy => Tree.nil_secures ⟨hy.1, hy.2 rfl⟩
  · exact fun y hy => Tree.nil_secures hy.1
  · exact fun z hz => checkout_apply_secures G c hz

/-- Below an image is its source, if it has one. -/
theorem source_secures (source : Option Checkout) (hp : p past) :
    (Tree.convergeAll Resource.provider policy above (source.toList.map Checkout.node)).Secures
      (.ofReplies mayRun) (fun y _ => p y ∧ ∀ src, source = some src → Sourced y src) past := by
  cases source with
  | none => exact Tree.nil_secures ⟨hp, fun _ h => by cases h⟩
  | some src =>
      refine Tree.cons_secures (checkout_secures G src hp) fun y hy => Tree.nil_secures ⟨hy.1, ?_⟩
      rintro _ ⟨⟩
      exact hy.2

end Checkouts

/-- Git does not count. -/
theorem unminded_at (u : UnitNode) (n k : Nat) : Unminded u.mayRun (At n k) where
  may _ c hgit := by
    rw [Command.isGit, decide_eq_true_eq] at hgit
    exact mayRun_other (by simp [Command.isKubectl, hgit]) (by simp [Command.isBuild, hgit])
  keep _ c _ hgit hat := by
    rw [Command.isGit, decide_eq_true_eq] at hgit
    exact hat.other (by simp [Command.isInspect, hgit]) (by simp [Command.isKubectl, hgit])

/-! ## Images

The children of an image come before the image itself unless the image is found to be there, and
under one of the policies they come after it even then.  In both cases the image is asked for
first, so all that is done for it happens at the same place of the order. -/

theorem image_satisfied_secures (i : Image) (hat : At n k past) :
    (Course.ofPlan i.satisfied).Secures u.order
      (fun y b => At (n + 1) k y ∧ (b = true → Ready y i)) past := by
  refine Command.run_secures (mayRun_other rfl rfl) fun o => ⟨hat.inspect rfl rfl, fun ho => ?_⟩
  exact .inl (succeeded_append ho)

theorem image_apply_secures {i : ImageNode} (hi : u.visited[n]? = some i)
    (hat : At (n + 1) k past) (hsrc : ∀ src, i.source = some src → Sourced past src) :
    (Course.ofPlan i.image.apply).Secures u.order
      (fun y _ => At (n + 1) k y ∧ Ready y i.image) past := by
  unfold Image.apply
  rw [Course.ofPlan_andThen]
  refine Course.Secures.andThen
    (p := fun y _ => ∃ o, o.success = true ∧ y = past ++ [(i.image.build, .ok o)]) ?_ ?_
  · refine Command.perform_secures _ ⟨(fun hk => by cases hk), fun _ => ?_⟩ fun o ho => ⟨o, ho, rfl⟩
    exact ⟨n, i, hat.inspected, hi, rfl, hsrc⟩
  · rintro _ _ ⟨o, ho, rfl⟩
    refine Command.perform_secures _ (mayRun_other rfl rfl) fun o' ho' => ?_
    refine ⟨(hat.other rfl rfl).other rfl rfl, .inr ⟨o, o', ?_, ho, ho'⟩⟩
    rw [List.append_assoc]
    exact List.sublist_append_right past _

/-- When the walk over an image has gone through, the image is in the registry. -/
theorem image_secures {i : ImageNode} (hi : u.visited[n]? = some i) (hat : At n k past) :
    (i.design.tree.convergeAt Resource.provider policy above).Secures u.order
      (fun y _ => At (n + 1) k y ∧ Ready y i.image) past := by
  have G := u.unminded_at (n + 1) k
  rw [ImageNode.tree_design]
  refine Tree.resource_secures u.order_onlyAsks
    (fun z => At (n + 1) k z ∧ ∀ src, i.source = some src → Sourced z src)
    (image_satisfied_secures i.image hat) ?_ ?_ ?_ ?_
  · exact fun y hy _ => ⟨hy.1, hy.2 rfl⟩
  · intro y hy
    refine (source_secures G i.source hy.1).grows.mono fun z _ hz => ⟨hz.2.1, ?_⟩
    exact (hy.2 rfl).mono hz.1
  · exact fun y hy => source_secures G i.source hy.1
  · exact fun z hz => image_apply_secures hi hz.1 hz.2

/-- Images are worked on in their order; whatever comes after them finds all of them in the
registry. -/
theorem images_secures {is : List ImageNode} {rest : List (Tree Resource)} {p : Replies → Prop}
    (before after : List ImageNode)
    (hv : u.visited = before ++ is ++ after) (hat : At before.length k past)
    (hrest : ∀ y, past <+: y → At (before ++ is).length k y → (∀ i ∈ is, Ready y i.image) →
      (Tree.convergeAll Resource.provider policy above rest).Secures u.order (fun z _ => p z) y) :
    (Tree.convergeAll Resource.provider policy above
      (is.map (fun i => i.design.tree) ++ rest)).Secures u.order (fun y _ => p y) past := by
  induction is generalizing before past with
  | nil => exact hrest past (List.prefix_refl _) (by simpa using hat) (by simp)
  | cons i is ih =>
      have hi : u.visited[before.length]? = some i := by simp [hv]
      refine Tree.cons_secures (image_secures hi hat).grows fun y hy => ?_
      refine ih (before ++ [i]) (by simpa using hv) (by simpa using hy.2.1) ?_
      intro z hyz hatz hready
      refine hrest z (hy.1.trans hyz) (by simpa using hatz) fun j hj => ?_
      rcases List.mem_cons.mp hj with rfl | hj
      · exact hy.2.2.mono hyz
      · exact hready j hj

/-! ## Manifests -/

/-- When the walk over a manifest has gone through, one more manifest has been applied, and its
images are in the registry. -/
theorem manifest_secures {m : ManifestNode} {before after : List ImageNode}
    (hm : u.manifests[k]? = some m) (hv : u.visited = before ++ m.images ++ after)
    (hat : At before.length k past) :
    (m.design.tree.convergeAt Resource.provider policy above).Secures u.order
      (fun y _ => At (before ++ m.images).length (k + 1) y ∧ ∀ i ∈ m.images, Ready y i.image)
      past := by
  have hsat : (Course.ofPlan m.manifest.satisfied).Secures u.order
      (fun y b => b = false ∧ At before.length k y) past := .ok ⟨rfl, hat⟩
  rw [ManifestNode.tree_design]
  refine Tree.resource_secures u.order_onlyAsks
    (fun z => At (before ++ m.images).length k z ∧ ∀ i ∈ m.images, Ready z i.image)
    hsat ?_ ?_ ?_ ?_
  · exact fun y hy => by cases hy.1
  · exact fun y hy => by cases hy.1
  · intro y hy
    have hlist : m.images.map (fun i => i.design.tree) =
        m.images.map (fun i => i.design.tree) ++ [] := by simp
    rw [hlist]
    exact images_secures before after hv hy.2 fun z _ hatz hready => Tree.nil_secures ⟨hatz, hready⟩
  · intro z hz
    refine Command.perform_secures _ ?_ fun o _ =>
      ⟨hz.1.apply rfl rfl, fun i hi => (hz.2 i hi).mono (List.prefix_append z _)⟩
    refine ⟨fun _ => ⟨m, ?_, rfl, hz.2⟩, fun hb => by cases hb⟩
    rw [hz.1.applied]
    exact hm

/-- Manifests are applied in their order, and in the end all of their images are in the
registry. -/
theorem manifests_secures {ms : List ManifestNode} (mbefore : List ManifestNode)
    (before : List ImageNode) (hm : u.manifests = mbefore ++ ms)
    (hv : u.visited = before ++ ms.flatMap ManifestNode.images)
    (hat : At before.length mbefore.length past) :
    (Tree.convergeAll Resource.provider policy above
      (ms.map fun m => m.design.tree)).Secures u.order
        (fun y _ => ∀ i ∈ ms.flatMap ManifestNode.images, Ready y i.image) past := by
  induction ms generalizing mbefore before past with
  | nil => exact Tree.nil_secures fun i hi => absurd hi List.not_mem_nil
  | cons m ms ih =>
      have hi : u.manifests[mbefore.length]? = some m := by simp [hm]
      have hsplit : u.visited = before ++ m.images ++ ms.flatMap ManifestNode.images := by
        rw [hv, List.flatMap_cons, List.append_assoc]
      refine Tree.cons_secures (manifest_secures hi hsplit hat) fun y hy => ?_
      refine (ih (mbefore ++ [m]) _ (by simpa using hm) hsplit (by simpa using hy.1)).grows.mono ?_
      rintro z _ ⟨hgrown, hrest⟩ i hi
      rw [List.flatMap_cons, List.mem_append] at hi
      rcases hi with hi | hi
      · exact (hy.2 i hi).mono hgrown
      · exact hrest i hi

/-! ## Units -/

/-- The work on a unit keeps to the order, and when it has gone through, all images of the unit are
in the registry. -/
theorem meets_order (u : UnitNode) (policy : Policy) :
    (u.design.tree.converge Resource.provider policy).Secures u.order
      (fun y _ => ∀ i ∈ u.visited, Ready y i.image) [] := by
  refine Tree.converge_secures u.order_onlyAsks ?_
  rw [tree_design]
  refine Tree.bare_secures u.order_onlyAsks ?_
  refine images_secures [] (u.manifests.flatMap ManifestNode.images) (k := 0) rfl ⟨rfl, rfl⟩
    fun y _ hat hready => ?_
  refine (manifests_secures [] _ rfl rfl hat).grows.mono ?_
  rintro z _ ⟨hgrown, hrest⟩ i hi
  rcases List.mem_append.mp hi with hi | hi
  · exact (hready i hi).mono hgrown
  · exact hrest i hi

end UnitNode

end Converge
