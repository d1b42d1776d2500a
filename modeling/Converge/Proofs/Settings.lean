import Converge.Program

/-!
# Settings are numbers of 64 bits

How many units are to be at work at once is said in the configuration file and on the command line.
Whatever number is taken from either fits into 64 bits, and the command line takes every number that
does.
-/

namespace Converge

section

variable {ε α β : Type} {x : Except ε α} {b : β}

theorem ok_of_bind_ok {f : α → Except ε β} (h : (x >>= f) = .ok b) :
    ∃ a, x = .ok a ∧ f a = .ok b := by
  cases x with
  | error e => cases h
  | ok a => exact ⟨a, rfl, h⟩

theorem ok_of_map_ok {f : α → β} (h : f <$> x = .ok b) : ∃ a, x = .ok a ∧ f a = b := by
  cases x with
  | error e => cases h
  | ok a => exact ⟨a, rfl, Except.ok.inj h⟩

end

/-! ## The configuration file -/

namespace Yaml

variable {α β σ : Type} {p : α → Prop} {q : β → Prop} {r : σ → Prop}

/-- Whatever comes of it is such. -/
def Decoding.Gives (x : Decoding α) (p : α → Prop) : Prop :=
  ∀ k a k', x.run k = .ok (a, k') → p a

namespace Decoding

theorem gives_anything (x : Decoding α) : x.Gives fun _ => True := fun _ _ _ _ => trivial

theorem gives_pure {a : α} (h : p a) : Gives (pure a) p := by
  intro k b k' hb
  obtain ⟨rfl, -⟩ := Prod.mk.inj (Except.ok.inj hb)
  exact h

theorem gives_throw (m : Misfit) : Gives (throw m) p := nofun

theorem Gives.bind {x : Decoding α} {f : α → Decoding β} (hx : x.Gives p)
    (hf : ∀ a, p a → (f a).Gives q) : (x >>= f).Gives q := by
  intro k b k' hb
  rw [StateT.run_bind] at hb
  obtain ⟨⟨a, mid⟩, ha, hb⟩ := ok_of_bind_ok hb
  exact hf a (hx k a mid ha) mid b k' hb

theorem Gives.map {x : Decoding α} {f : α → β} (hx : x.Gives p) (hf : ∀ a, p a → q (f a)) :
    (f <$> x).Gives q := by
  rw [map_eq_pure_bind]
  exact hx.bind fun a ha => gives_pure (hf a ha)

end Decoding

namespace Decoder

open Decoding

/-- Whatever is read is such. -/
def Yields (read : Decoder α) (p : α → Prop) : Prop := ∀ d place n, (read d place n).Gives p

theorem yields_anything (read : Decoder α) : read.Yields fun _ => True :=
  fun _ _ _ => gives_anything _

theorem yields_natural (expected : String) :
    (natural expected).Yields fun n => isWord n = true := by
  intro d place n
  refine (gives_anything (follow d n)).bind fun n _ => ?_
  split
  · rename_i k hk
    exact gives_pure (Option.filter_eq_some_iff.mp hk).2
  · exact gives_throw _

theorem Yields.optional {read : Decoder α} (h : read.Yields p) :
    (optional read).Yields fun o => ∀ a ∈ o, p a := by
  intro d place n
  refine (gives_anything (follow d n)).bind fun n _ => (gives_anything _).bind fun absent _ => ?_
  split
  · exact gives_pure nofun
  · exact (h d place n).map fun a ha b hb => Option.some.inj hb ▸ ha

/-- A field whose values leave a record as it should be. -/
def Slot.Keeps (field : Slot σ) (r : σ → Prop) : Prop := ∀ s, r s → (field.put s).Yields r

theorem Slot.keeps_free (name : String) {read : Decoder β} {set : σ → β → σ} (h : read.Yields q)
    (hset : ∀ s b, r s → q b → r (set s b)) : (free name read set).Keeps r :=
  fun s hs d place n => (h d place n).map fun b hb => hset s b hs hb

/-- Values that are put into a record one after the other leave it as it should be. -/
theorem gives_fill {fields : List (Slot σ)} (hfields : ∀ field ∈ fields, field.Keeps r)
    (d : Document) (place : Place) {s : σ} (hs : r s) (seen : List String)
    (nodes : List (Node × Node)) :
    (fill fields d place s seen nodes).Gives fun filled => r filled.1 := by
  induction nodes generalizing s seen with
  | nil => exact gives_pure hs
  | cons entry rest ih =>
      refine (gives_anything (text _ d place entry.1)).bind fun name _ => ?_
      split
      · exact ih hs seen
      · rename_i field hfield
        split
        · exact gives_throw _
        · have hkeeps := hfields field (List.mem_of_find?_eq_some hfield)
          exact (hkeeps s hs d _ _).bind fun s' hs' => ih hs' _

theorem yields_record (expected : String) {fields : List (Slot σ)} {start : σ} (hstart : r start)
    (hfields : ∀ field ∈ fields, field.Keeps r) : (record expected fields start).Yields r := by
  intro d place n
  refine (gives_anything (entries expected d place n)).bind fun nodes _ => ?_
  refine (gives_fill hfields d place hstart [] nodes).bind fun filled hfilled => ?_
  dsimp only
  split
  · exact gives_throw _
  · exact gives_pure hfilled

end Decoder

end Yaml

open Yaml.Decoder

/-- The limit that a file gives, if it gives one, fits into 64 bits. -/
def RunOptions.Fits (o : RunOptions) : Prop := ∀ n ∈ o.limit, isWord n = true

theorem RunOptions.yields_decode : decode.Yields Fits := by
  refine yields_record _ nofun fun field hfield => ?_
  simp only [fields, List.mem_cons, List.not_mem_nil, or_false] at hfield
  rcases hfield with rfl | rfl
  · exact Slot.keeps_free _ (yields_natural _).optional fun _ _ _ hlimit => hlimit
  · exact Slot.keeps_free _ (yields_anything _) fun _ _ hold _ => hold

namespace Config

theorem yields_fields : (record "struct Config" fields vacant).Yields fun c => c.options.Fits := by
  refine yields_record _ nofun fun field hfield => ?_
  simp only [fields, List.mem_cons, List.not_mem_nil, or_false] at hfield
  rcases hfield with rfl | rfl | rfl
  · exact Slot.keeps_free _ (yields_anything _) fun _ _ hold _ => hold
  · exact Slot.keeps_free _ RunOptions.yields_decode fun _ _ _ hnew => hnew
  · exact Slot.keeps_free _ (yields_anything _) fun _ _ hold _ => hold

theorem fits_ofDocument {d : Yaml.Document} {c : Config} (h : ofDocument d = .ok c) :
    c.options.Fits := by
  rw [ofDocument] at h
  split at h
  · exact Except.ok.inj h ▸ nofun
  · rename_i n _
    rw [StateT.run'_eq] at h
    obtain ⟨⟨c', left⟩, hread, rfl⟩ := ok_of_map_ok h
    exact yields_fields d .root n _ c' left hread

theorem fits_ofText {text : String} {c : Config} (h : ofText text = .ok c) : c.options.Fits := by
  rw [ofText] at h
  split at h
  · cases h
  · cases h
  · split at h
    · cases h
    · rename_i hdocument
      split at h
      · exact Except.ok.inj h ▸ fits_ofDocument hdocument
      · cases h

theorem fits_ofBytes {path : Pathname} {bytes : Except String (List Nat)} {c : Config}
    (h : ofBytes path bytes = .ok c) : c.options.Fits := by
  obtain ⟨read, -, h⟩ := ok_of_bind_ok h
  split at h
  · cases h
  · rename_i text htext
    obtain ⟨c', hparsed, h⟩ := ok_of_bind_ok h
    cases hc : ofText text with
    | error e =>
        rw [hc] at hparsed
        cases hparsed
    | ok c'' =>
        rw [hc] at hparsed
        obtain rfl := Except.ok.inj hparsed
        obtain rfl := Except.ok.inj h
        have hfits := fits_ofText hc
        exact hfits

end Config

/-! ## The command line -/

theorem isWord_of_jobs? {value : String} {n : Nat} (h : jobs? value = some n) :
    isWord n = true := by
  unfold jobs? at h
  extract_lets digits at h
  split at h
  · cases h
  · exact (Option.filter_eq_some_iff.mp h).2

theorem toList_toString (n : Nat) : (toString n).toList = Nat.toDigits 10 n := by
  rw [Nat.toString_eq_ofList_toDigits, String.toList_ofList]

theorem isDigit_of_mem_toList {n : Nat} {c : Char} (hc : c ∈ (toString n).toList) :
    c.isDigit = true := by
  rw [toList_toString] at hc
  exact Nat.isDigit_of_mem_toDigits (Nat.succ_pos 9) (Nat.le_refl 10) hc

theorem jobs?_toString {n : Nat} (h : isWord n = true) : jobs? (toString n) = some n := by
  unfold jobs?
  extract_lets digits
  have hdigits : digits = (toString n).toList := by
    simp only [digits]
    split
    · rename_i rest hplus
      have hdigit := isDigit_of_mem_toList (n := n) (c := '+') (hplus ▸ List.mem_cons_self)
      cases hdigit
    · rfl
  have hall : (toString n).toList.all Char.isDigit = true :=
    List.all_eq_true.mpr fun _ => isDigit_of_mem_toList
  have hsome : (toString n).toList.isEmpty = false := by
    rw [toList_toString, List.isEmpty_eq_false_iff]
    exact Nat.toDigits_ne_nil
  rw [hdigits, hall, hsome, toList_toString, Nat.ofDigitChars_ten_toDigits]
  exact Option.filter_eq_some_iff.mpr ⟨rfl, h⟩

namespace Invocation

variable {i j : Invocation} {arg : String} {rest : List String}

/-- The number of jobs that is asked for, if one is, fits into 64 bits. -/
def Fits (i : Invocation) : Prop := ∀ n ∈ i.jobs, isWord n = true

theorem fits_empty : empty.Fits := nofun

theorem Fits.set? (h : i.Fits) {value : String} {f : Flag} (hj : i.set? value f = some j) :
    j.Fits := by
  cases f with
  | jobs =>
      obtain ⟨n, hn, rfl⟩ := Option.map_eq_some_iff.mp hj
      exact fun k hk => Option.some.inj hk ▸ isWord_of_jobs? hn
  | config | policy =>
      obtain ⟨_, -, rfl⟩ := Option.map_eq_some_iff.mp hj
      exact h
  | _ => exact Option.some.inj hj ▸ h

theorem Fits.add (h : i.Fits) {f : Flag} {value : String} (hj : i.add f value = .ok j) :
    j.Fits := by
  rw [Invocation.add] at hj
  split at hj
  · cases hj
  · rename_i k hk
    split at hj
    · cases hj
    · exact Except.ok.inj hj ▸ h.set? hk

theorem add_of_mark {f : Flag} (h : i.mark f = .ok j) : i.add f "" = .ok j := by
  cases f with
  | help | version => cases h
  | _ => exact h

/-- An argument is the end of the options, or an option that is taken up, perhaps with the argument
after it. -/
theorem read_cons (h : i.read (arg :: rest) = .ok j) : j = i ∨ ∃ k more,
    (∃ f v, i.add f v = .ok k) ∧ more.length ≤ rest.length ∧ k.read more = .ok j := by
  have hgoOn : ∀ {first : Except Aside Invocation} {more : List String},
      (∀ k, first = .ok k → ∃ f v, i.add f v = .ok k) → more.length ≤ rest.length →
      (first >>= fun k => k.read more) = .ok j →
      ∃ k more, (∃ f v, i.add f v = .ok k) ∧ more.length ≤ rest.length ∧ k.read more = .ok j := by
    intro first more hfirst hmore h
    obtain ⟨k, hk, hread⟩ := ok_of_bind_ok h
    exact ⟨k, more, hfirst k hk, hmore, hread⟩
  have hadd : ∀ f v k, i.add f v = .ok k → ∃ f v, i.add f v = .ok k :=
    fun f v _ hk => ⟨f, v, hk⟩
  have hmark : ∀ f k, i.mark f = .ok k → ∃ f v, i.add f v = .ok k :=
    fun f _ hk => ⟨f, "", add_of_mark hk⟩
  unfold read at h
  dsimp only at h
  split at h
  · split at h
    · exact .inl (Except.ok.inj h).symm
    · cases h
  · split at h
    · cases h
    · split at h
      · exact .inr (hgoOn (hadd _ _) (Nat.le_refl _) h)
      · cases h
    · split at h
      · split at h
        · split at h
          · exact .inr (hgoOn (hadd _ _) (Nat.le_succ _) h)
          · cases h
        · cases h
      · exact .inr (hgoOn (hmark _) (Nat.le_refl _) h)
  · split at h
    · cases h
    · split at h
      · exact .inr (hgoOn (hmark _) (Nat.le_refl _) h)
      · split at h
        · split at h
          · split at h
            · exact .inr (hgoOn (hadd _ _) (Nat.le_succ _) h)
            · cases h
          · cases h
        · exact .inr (hgoOn (hadd _ _) (Nat.le_refl _) h)
        · exact .inr (hgoOn (hadd _ _) (Nat.le_refl _) h)
  · cases h

theorem Fits.read (h : i.Fits) {args : List String} (hj : i.read args = .ok j) : j.Fits := by
  induction hn : args.length using Nat.strongRecOn generalizing i args with
  | ind n ih =>
      cases args with
      | nil => exact Except.ok.inj hj ▸ h
      | cons arg rest =>
          obtain rfl | ⟨k, more, ⟨f, v, hadd⟩, hmore, hread⟩ := read_cons hj
          · exact h
          · exact ih more.length (hn ▸ Nat.lt_succ_of_le hmore) (h.add hadd) hread rfl

theorem fits_ofArgs {surrounding : Option String} {args : List String}
    (h : ofArgs surrounding args = .ok i) : i.Fits := by
  obtain ⟨j, hread, h⟩ := ok_of_bind_ok h
  have hj : j.Fits := fits_empty.read hread
  unfold complete at h
  split at h
  · exact Except.ok.inj h ▸ hj
  · exact hj.add h
  · exact Except.ok.inj h ▸ hj

/-- Any number of 64 bits can be asked for. -/
theorem ofArgs_jobs {n : Nat} (h : isWord n = true) :
    ofArgs none ["--jobs", toString n] =
      .ok { empty with jobs := some n, config := some defaultConfig } := by
  have hvalue : isValue (toString n) = true := by
    rw [isValue, Bool.or_eq_true, decide_eq_true_eq, decide_eq_true_eq]
    refine .inr fun hdash => ?_
    have hdigit := isDigit_of_mem_toList (List.mem_of_head? hdash)
    cases hdigit
  have hadd : empty.add .jobs (toString n) = .ok { empty with jobs := some n } := by
    rw [Invocation.add, Invocation.set?, jobs?_toString h]
    rfl
  have hread : empty.read ["--jobs", toString n] = .ok { empty with jobs := some n } := by
    have hparts : splitValue ['j', 'o', 'b', 's'] = ("jobs", none) := by decide
    have hflag : Flag.ofLong? "jobs" = some .jobs := by decide
    have hlist : "--jobs".toList = ['-', '-', 'j', 'o', 'b', 's'] := by decide
    simp only [read, hlist, hparts, hflag, hvalue, hadd, Flag.takesValue, if_true]
    rfl
  rw [ofArgs, hread]
  rfl

end Invocation

end Converge
