import Converge.Proofs.Monitor
import Converge.Tree.Converge

/-!
# Monitors of walks

What a monitor has to grant so that every walk over a tree meets it: notes in the journal, looks,
and the two kinds of work on a resource.  An invariant of its states then holds wherever a walk
may come to, and every fault that ends one is of a known kind.
-/

namespace Converge

/-- Is it one of the events that walks over trees write down? -/
def Event.isOfWalk : Event → Bool
  | applyStarted .. | applyCompleted .. | passFailed .. => true
  | nodeSatisfied .. | nodeApplying .. | nodeApplied .. => true
  | _ => false

namespace Tree

variable {Q : Type} {A : Q → Type} {R σ α : Type}

/-- The invariant holds, and a fault is of a known kind. -/
def Keeps (I : σ → Prop) (known : Fault → Prop) (x : σ) (r : Except Fault α) : Prop :=
  I x ∧ ∀ f, r = .error f → known f

@[simp] theorem keeps_ok {I : σ → Prop} {known : Fault → Prop} {x : σ} {a : α} :
    Keeps I known x (.ok a : Except Fault α) ↔ I x := by
  simp [Keeps]

@[simp] theorem keeps_error {I : σ → Prop} {known : Fault → Prop} {x : σ} {f : Fault} :
    Keeps I known x (.error f : Except Fault α) ↔ I x ∧ known f := by
  simp [Keeps]

/-- The monitor grants what a walk over resources in `S` does, keeps `I`, and sees no fault that
is not `known`. -/
structure Grants (M : Monitor Q A R σ) (P : Provider Q A R) (S : R → Prop) (I : σ → Prop)
    (known : Fault → Prop) : Prop where
  note : ∀ x e, e.isOfWalk = true → I x →
    M.mayLeave x (.event e) ∧ I (M.left x (.event e))
  look : ∀ x b y, I x → M.looked x b = some y → I y
  stop : ∀ x y here, I x → M.looked x true = some y → known (.cancelled here)
  /-- A resource is asked about right after a look that found no cancellation. -/
  satisfied : ∀ x y here r, I x → M.looked x false = some y → S r →
    (isSatisfied P here r).Meets M (Keeps I known) y
  apply : ∀ x here r, I x → S r → (applyResource P here r).Meets M (Keeps I known) x

variable {M : Monitor Q A R σ} {P : Provider Q A R} {S : R → Prop} {I : σ → Prop}
  {known : Fault → Prop}

namespace Grants

/-- A course goes on after another one that kept to the same. -/
theorem andThen {β : Type} {c : Course Q A R (Except Fault α)}
    {f : α → Course Q A R (Except Fault β)} {x : σ} (h : c.Meets M (Keeps I known) x)
    (hf : ∀ y a, I y → (f a).Meets M (Keeps I known) y) :
    (c.andThen f).Meets M (Keeps I known) x :=
  h.andThen (fun y a hy => hf y a (keeps_ok.mp hy)) fun _ _ hy =>
    keeps_error.mpr (keeps_error.mp hy)

mutual

/-- A walk over a tree that hangs somewhere meets the monitor. -/
theorem convergeAt_meets (G : Grants M P S I known) (policy : Policy) :
    ∀ (t : Tree R) (above : Address) (x : σ), (∀ r ∈ t.resources, S r) → I x →
      (t.convergeAt P policy above).Meets M (Keeps I known) x
  | node name none ts, above, x, hS, hx => by
      rw [convergeAt_bare]
      rintro (_ | _) y hy
      · have hts : ∀ r ∈ resourcesAll ts, S r := by simpa using hS
        refine andThen (G.convergeAll_meets policy ts _ y hts (G.look x _ y hx hy)) ?_
        exact fun z below hz => keeps_ok.mpr hz
      · exact keeps_error.mpr ⟨G.look x _ y hx hy, G.stop x y _ hx hy⟩
  | node name (some r) ts, above, x, hS, hx => by
      have hts : ∀ r' ∈ resourcesAll ts, S r' := fun r' hr' => hS r' (by simp [hr'])
      rw [convergeAt_resource]
      rintro (_ | _) y hy
      · refine andThen (G.satisfied x y _ r hx hy (hS r (by simp))) fun z satisfied hz => ?_
        cases satisfied with
        | false =>
            refine andThen (G.convergeAll_meets policy ts _ z hts hz) fun z' below hz' => ?_
            refine andThen (G.apply z' _ r hz' (hS r (by simp))) fun z'' _ hz'' => ?_
            exact keeps_ok.mpr hz''
        | true =>
            obtain ⟨hmay, hz'⟩ := G.note z (.nodeSatisfied _ _ _) rfl hz
            refine ⟨hmay, ?_⟩
            cases policy with
            | skipSubtree => exact keeps_ok.mpr hz'
            | selfOnly =>
                refine andThen (G.convergeAll_meets .selfOnly ts _ _ hts hz') ?_
                exact fun z'' below hz'' => keeps_ok.mpr hz''
      · exact keeps_error.mpr ⟨G.look x _ y hx hy, G.stop x y _ hx hy⟩

/-- So do walks over several trees, one after the other. -/
theorem convergeAll_meets (G : Grants M P S I known) (policy : Policy) :
    ∀ (ts : List (Tree R)) (above : Address) (x : σ), (∀ r ∈ resourcesAll ts, S r) → I x →
      (convergeAll P policy above ts).Meets M (Keeps I known) x
  | [], above, x, _, hx => by
      rw [convergeAll_nil]
      exact keeps_ok.mpr hx
  | t :: ts, above, x, hS, hx => by
      rw [convergeAll_cons]
      have ht := G.convergeAt_meets policy t above x (fun r hr => hS r (by simp [hr])) hx
      refine andThen ht fun y first hy => ?_
      refine andThen (G.convergeAll_meets policy ts above y (fun r hr => hS r (by simp [hr])) hy) ?_
      exact fun z others hz => keeps_ok.mpr hz

end

/-- A whole walk meets the monitor. -/
theorem converge_meets (G : Grants M P S I known) (policy : Policy) (t : Tree R) (x : σ)
    (hS : ∀ r ∈ t.resources, S r) (hx : I x) :
    (t.converge P policy).Meets M (Keeps I known) x := by
  obtain ⟨hmay, hx'⟩ := G.note x (.applyStarted t.name policy.name) rfl hx
  refine ⟨hmay, (G.convergeAt_meets policy t .top _ hS hx').bind fun y r hr => ?_⟩
  cases r with
  | ok tally =>
      obtain ⟨hmay, hy⟩ := G.note y (.applyCompleted t.name tally.applied tally.satisfied none)
        rfl (keeps_ok.mp hr)
      exact ⟨hmay, keeps_ok.mpr hy⟩
  | error f =>
      obtain ⟨hy, hf⟩ := keeps_error.mp hr
      obtain ⟨hmay, hy'⟩ := G.note y (.passFailed "apply" t.name f.message) rfl hy
      rw [concluded]
      split
      · exact keeps_error.mpr ⟨hy, hf⟩
      · exact ⟨hmay, keeps_error.mpr ⟨hy', hf⟩⟩

end Grants

/-! ## Walks that may fail -/

section Secures

variable {p : σ → Prop} {x : σ} (hM : M.OnlyAsks)
include hM

theorem isSatisfied_secures {sat : σ → Bool → Prop} {r : R} (here : Address)
    (h : (Course.ofPlan (P.satisfied r)).Secures M sat x) :
    (isSatisfied P here r).Secures M sat x :=
  (h.call hM .satisfied r).bind (fun _ _ hb => .ok hb) fun _ _ => .look hM fun _ => .error

theorem applyResource_secures {r : R} (here : Address)
    (h : (Course.ofPlan (P.apply r)).Secures M (fun y _ => p y) x) :
    (applyResource P here r).Secures M (fun y _ => p y) x := by
  refine .look hM fun b => ?_
  cases b with
  | true => exact .error
  | false =>
      refine .leave hM ((h.call hM .apply r).bind (fun y _ hy => ?_) fun y f => ?_)
      · exact .leave hM (.ok hy)
      · exact .look hM fun _ => .error

variable {policy : Policy} {above : Address} {name : String} {ts : List (Tree R)}

/-- A node without a resource is done when its children are. -/
theorem bare_secures
    (h : (convergeAll P policy (above.child name) ts).Secures M (fun y _ => p y) x) :
    ((node name none ts).convergeAt P policy above).Secures M (fun y _ => p y) x := by
  rw [convergeAt_bare]
  refine .look hM fun b => ?_
  cases b with
  | true => exact .error
  | false => exact h.andThen fun y _ hy => .ok hy

/-- A node with a resource is done when the resource was found as declared, or when it has been
worked on after the children. -/
theorem resource_secures {r : R} {sat : σ → Bool → Prop} (below : σ → Prop)
    (hsat : (Course.ofPlan (P.satisfied r)).Secures M sat x)
    (hskip : ∀ y, sat y true → policy = .skipSubtree → p y)
    (hself : ∀ y, sat y true →
      (convergeAll P .selfOnly (above.child name) ts).Secures M (fun z _ => p z) y)
    (hbelow : ∀ y, sat y false →
      (convergeAll P policy (above.child name) ts).Secures M (fun z _ => below z) y)
    (happly : ∀ z, below z → (Course.ofPlan (P.apply r)).Secures M (fun w _ => p w) z) :
    ((node name (some r) ts).convergeAt P policy above).Secures M (fun y _ => p y) x := by
  rw [convergeAt_resource]
  refine .look hM fun b => ?_
  cases b with
  | true => exact .error
  | false =>
      refine (isSatisfied_secures hM _ hsat).andThen fun y satisfied hy => ?_
      cases satisfied with
      | true =>
          refine .leave hM ?_
          cases policy with
          | skipSubtree => exact .ok (hskip y hy rfl)
          | selfOnly => exact (hself y hy).andThen fun z _ hz => .ok hz
      | false =>
          refine (hbelow y hy).andThen fun z _ hz => ?_
          exact (applyResource_secures hM _ (happly z hz)).andThen fun w _ hw => .ok hw

omit hM in
theorem nil_secures (h : p x) : (convergeAll P policy above []).Secures M (fun y _ => p y) x := by
  rw [convergeAll_nil]
  exact .ok h

omit hM in
/-- Trees are walked one after the other. -/
theorem cons_secures {t : Tree R} {mid : σ → Prop}
    (h : (t.convergeAt P policy above).Secures M (fun y _ => mid y) x)
    (hts : ∀ y, mid y → (convergeAll P policy above ts).Secures M (fun z _ => p z) y) :
    (convergeAll P policy above (t :: ts)).Secures M (fun y _ => p y) x := by
  rw [convergeAll_cons]
  refine h.andThen fun y _ hy => ?_
  exact (hts y hy).andThen fun z _ hz => .ok hz

omit hM in
/-- What each of several trees keeps they keep together. -/
theorem all_secures
    (h : ∀ t ∈ ts, ∀ y, p y → (t.convergeAt P policy above).Secures M (fun z _ => p z) y)
    (hp : p x) : (convergeAll P policy above ts).Secures M (fun y _ => p y) x := by
  induction ts generalizing x with
  | nil => exact nil_secures hp
  | cons t ts ih =>
      rw [List.forall_mem_cons] at h
      exact cons_secures (h.1 x hp) fun y hy => ih h.2 hy

/-- A whole walk is as good as the walk from its root. -/
theorem converge_secures {t : Tree R}
    (h : (t.convergeAt P policy .top).Secures M (fun y _ => p y) x) :
    (t.converge P policy).Secures M (fun y _ => p y) x := by
  refine .leave hM (h.bind (fun y _ hy => .leave hM (.ok hy)) fun y f => ?_)
  rw [concluded]
  split
  · exact .error
  · exact .leave hM .error

end Secures

end Tree

end Converge
