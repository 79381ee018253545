import Decompiler.Arena
import Mathlib.Data.List.Forall2

/-!
# Computations that come to a result

How to take a computation with faults apart, and how to show that one comes to a result.

* `Checked.bind_eq_ok`: a chain of two computations has a result exactly when the first has one
  from which the second goes on to it.
* `Returns`: a computation comes to a result with some property. Such statements are put together
  by `Returns.bind`, and over lists by `Returns.foldlM` and `Returns.mapM`.
-/

namespace Decompiler

/-! ## Taking computations apart -/

namespace Checked

variable {α β : Type}

@[simp] theorem bind_eq_ok {x : Checked α} {f : α → Checked β} {b : β} :
    (x >>= f) = .ok b ↔ ∃ a, x = .ok a ∧ f a = .ok b := by
  cases x <;> simp [bind, Except.bind]

@[simp] theorem pure_eq_ok {a b : α} : (pure a : Checked α) = .ok b ↔ a = b := by
  simp [pure, Except.pure]

@[simp] theorem map_eq_ok {x : Checked α} {f : α → β} {b : β} :
    (f <$> x) = .ok b ↔ ∃ a, x = .ok a ∧ f a = b := by
  cases x <;> simp [Functor.map, Except.map]

@[simp] theorem ok_bind {a : α} {f : α → Checked β} : ((.ok a : Checked α) >>= f) = f a := rfl

/-- What follows either of two computations follows the choice between them. -/
theorem ite_bind {p : Prop} [Decidable p] (x y : Checked α) (f : α → Checked β) :
    (if p then x >>= f else y >>= f) = (if p then x else y) >>= f := by
  split <;> rfl

/-- What every step of a fold keeps is kept by the fold. -/
theorem foldlM_keeps {f : β → α → Checked β} (P : β → Prop) {l : List α} {b b' : β}
    (h : l.foldlM f b = .ok b') (start : P b)
    (step : ∀ a ∈ l, ∀ b b', P b → f b a = .ok b' → P b') : P b' := by
  induction l generalizing b with
  | nil =>
    simp only [List.foldlM_nil, pure_eq_ok] at h
    exact h ▸ start
  | cons a l ih =>
    simp only [List.foldlM_cons, bind_eq_ok] at h
    obtain ⟨c, hc, h⟩ := h
    exact ih h (step a (by simp) b c start hc) fun a ha => step a (by simp [ha])

/-- The same with an invariant that depends on what was visited. -/
theorem foldlM_upTo {f : β → α → Checked β} {R : List α → β → Prop} {l : List α} {b b' : β}
    (h : l.foldlM f b = .ok b') (start : R [] b)
    (step : ∀ visited a rest, visited ++ a :: rest = l → ∀ b c, R visited b → f b a = .ok c →
      R (visited ++ [a]) c) : R l b' := by
  have key : ∀ l' visited b, visited ++ l' = l → R visited b → l'.foldlM f b = .ok b' → R l b' := by
    intro l'
    induction l' with
    | nil =>
      intro visited b hl hR h
      rw [List.append_nil] at hl
      obtain rfl := pure_eq_ok.1 h
      exact hl ▸ hR
    | cons a l' ih =>
      intro visited b hl hR h
      rw [List.foldlM_cons] at h
      obtain ⟨c, hc, h⟩ := bind_eq_ok.1 h
      exact ih (visited ++ [a]) c (by simpa using hl) (step visited a l' hl b c hR hc) h
  exact key l [] b rfl start h

/-- The result of a map over a list is made of the results of its elements. -/
theorem mapM_eq_ok_iff {f : α → Checked β} {l : List α} {r : List β} :
    l.mapM f = .ok r ↔ List.Forall₂ (fun a b => f a = .ok b) l r := by
  induction l generalizing r with
  | nil => simp [pure, Except.pure, eq_comm]
  | cons a l ih =>
    simp only [List.mapM_cons, bind_eq_ok, ih, pure_eq_ok, List.forall₂_cons_left_iff]
    constructor
    · rintro ⟨b, hb, r, hr, rfl⟩
      exact ⟨b, r, hb, hr, rfl⟩
    · rintro ⟨b, r, hb, hr, rfl⟩
      exact ⟨b, hb, r, hr, rfl⟩

theorem exists_of_mem {R : α → β → Prop} {l : List α} {r : List β} (h : List.Forall₂ R l r)
    {a : α} (ha : a ∈ l) : ∃ b ∈ r, R a b := by
  induction h with
  | nil => cases ha
  | cons hR _ ih =>
    rcases List.mem_cons.1 ha with rfl | ha
    · exact ⟨_, by simp, hR⟩
    · obtain ⟨b, hb, hRb⟩ := ih ha
      exact ⟨b, by simp [hb], hRb⟩

theorem exists_of_forall₂_append {R : α → β → Prop} {l₁ l₂ : List α} {r : List β}
    (h : List.Forall₂ R (l₁ ++ l₂) r) :
    ∃ r₁ r₂, r = r₁ ++ r₂ ∧ List.Forall₂ R l₁ r₁ ∧ List.Forall₂ R l₂ r₂ := by
  induction l₁ generalizing r with
  | nil => exact ⟨[], r, rfl, .nil, h⟩
  | cons a l₁ ih =>
    obtain ⟨b, r, hb, hr, rfl⟩ := List.forall₂_cons_left_iff.1 h
    obtain ⟨r₁, r₂, rfl, h₁, h₂⟩ := ih hr
    exact ⟨b :: r₁, r₂, rfl, .cons hb h₁, h₂⟩

/-- What a search finds it finds at an element. -/
theorem exists_of_findSomeM? {f : α → Checked (Option β)} {l : List α} {b : β}
    (h : l.findSomeM? f = .ok (some b)) : ∃ a ∈ l, f a = .ok (some b) := by
  induction l with
  | nil => cases h
  | cons a l ih =>
    rw [List.findSomeM?_cons] at h
    obtain ⟨r, hr, h⟩ := bind_eq_ok.1 h
    cases r with
    | none =>
      obtain ⟨a', ha', hf⟩ := ih h
      exact ⟨a', by simp [ha'], hf⟩
    | some c =>
      obtain rfl : c = b := Option.some.inj (pure_eq_ok.1 h)
      exact ⟨a, by simp, hr⟩

/-- A search that finds nothing finds nothing at any element. -/
theorem forall_of_findSomeM?_eq_none {f : α → Checked (Option β)} {l : List α}
    (h : l.findSomeM? f = .ok none) : ∀ a ∈ l, f a = .ok none := by
  induction l with
  | nil => exact List.forall_mem_nil _
  | cons a l ih =>
    rw [List.findSomeM?_cons] at h
    obtain ⟨r, hr, h⟩ := bind_eq_ok.1 h
    cases r with
    | none => exact List.forall_mem_cons.2 ⟨hr, ih h⟩
    | some c => cases pure_eq_ok.1 h

theorem exists_of_anyM {f : α → Checked Bool} {l : List α} (h : l.anyM f = .ok true) :
    ∃ a ∈ l, f a = .ok true := by
  induction l with
  | nil => cases h
  | cons a l ih =>
    rw [List.anyM_cons] at h
    obtain ⟨r, hr, h⟩ := bind_eq_ok.1 h
    cases r with
    | true => exact ⟨a, by simp, hr⟩
    | false =>
      obtain ⟨a', ha', hf⟩ := ih h
      exact ⟨a', by simp [ha'], hf⟩

theorem forall_of_anyM {f : α → Checked Bool} {l : List α} (h : l.anyM f = .ok false) :
    ∀ a ∈ l, f a = .ok false := by
  induction l with
  | nil => exact List.forall_mem_nil _
  | cons a l ih =>
    rw [List.anyM_cons] at h
    obtain ⟨r, hr, h⟩ := bind_eq_ok.1 h
    cases r with
    | true => cases pure_eq_ok.1 h
    | false => exact List.forall_mem_cons.2 ⟨hr, ih h⟩

theorem mem_of_findM? {f : α → Checked Bool} {l : List α} {a : α}
    (h : l.findM? f = .ok (some a)) : a ∈ l ∧ f a = .ok true := by
  induction l with
  | nil => cases h
  | cons b l ih =>
    rw [List.findM?] at h
    obtain ⟨r, hr, h⟩ := bind_eq_ok.1 h
    cases r with
    | true =>
      obtain rfl : b = a := Option.some.inj (pure_eq_ok.1 h)
      exact ⟨by simp, hr⟩
    | false => exact (ih h).imp_left (List.mem_cons_of_mem b)

theorem mem_of_filterM {p : α → Checked Bool} {l r : List α} (h : l.filterM p = .ok r) {a : α}
    (ha : a ∈ r) : a ∈ l := by
  have key : ∀ (l acc r : List α), l.filterAuxM p acc = .ok r → ∀ a ∈ r, a ∈ l ∨ a ∈ acc := by
    intro l
    induction l with
    | nil =>
      intro acc r h a ha
      simp only [List.filterAuxM, pure_eq_ok] at h
      exact .inr (h ▸ ha)
    | cons b l ih =>
      intro acc r h a ha
      simp only [List.filterAuxM, bind_eq_ok] at h
      obtain ⟨keep, -, h⟩ := h
      rw [List.mem_cons]
      rcases ih _ r h a ha with hl | hacc
      · exact .inl (.inr hl)
      · cases keep with
        | false => exact .inr hacc
        | true => exact (List.mem_cons.1 hacc).imp_left .inl
  simp only [List.filterM, bind_eq_ok, pure_eq_ok] at h
  obtain ⟨r', hr', rfl⟩ := h
  simpa using key l [] r' hr' a (List.mem_reverse.1 ha)

theorem mem_filterMapM {α β : Type} {f : α → Checked (Option β)} {l : List α}
    {r : List β} (h : l.filterMapM f = .ok r) {b : β} : b ∈ r ↔ ∃ a ∈ l, f a = .ok (some b) := by
  induction l generalizing r with
  | nil =>
    rw [List.filterMapM_nil, pure_eq_ok] at h
    simp [← h]
  | cons a l ih =>
    rw [List.filterMapM_cons] at h
    obtain ⟨o, ho, h⟩ := bind_eq_ok.1 h
    cases o with
    | none => simp [ih h, ho]
    | some c =>
      obtain ⟨bs, hbs, h⟩ := bind_eq_ok.1 h
      simp [← pure_eq_ok.1 h, ih hbs, ho, eq_comm]

end Checked

/-! ## Coming to a result -/

/-- The computation comes to a result, and the result satisfies `P`. -/
def Returns {α : Type} (x : Checked α) (P : α → Prop) : Prop := ∃ a, x = .ok a ∧ P a

instance {α : Type} (x : Checked α) (P : α → Prop) [DecidablePred P] : Decidable (Returns x P) :=
  match x with
  | .ok a => decidable_of_iff (P a) (by simp [Returns])
  | .error _ => isFalse (by simp [Returns])

namespace Returns

variable {α β : Type} {x : Checked α} {P Q : α → Prop}

@[simp] theorem ok_iff {a : α} : Returns (.ok a) P ↔ P a := by
  simp [Returns]

@[simp] theorem pure_iff {a : α} : Returns (pure a) P ↔ P a := ok_iff

theorem mono (h : Returns x P) (hPQ : ∀ a, P a → Q a) : Returns x Q := by
  obtain ⟨a, ha, hP⟩ := h
  exact ⟨a, ha, hPQ a hP⟩

theorem bind {f : α → Checked β} {R : β → Prop} (h : Returns x P)
    (hf : ∀ a, x = .ok a → P a → Returns (f a) R) : Returns (x >>= f) R := by
  obtain ⟨a, ha, hP⟩ := h
  obtain ⟨b, hb, hR⟩ := hf a ha hP
  exact ⟨b, Checked.bind_eq_ok.2 ⟨a, ha, hb⟩, hR⟩

theorem foldlM {f : β → α → Checked β} {R : β → Prop} {l : List α} {b : β} (start : R b)
    (step : ∀ a ∈ l, ∀ b, R b → Returns (f b a) R) : Returns (l.foldlM f b) R := by
  induction l generalizing b with
  | nil => simpa using start
  | cons a l ih =>
    rw [List.foldlM_cons]
    exact (step a (by simp) b start).bind fun c _ hc =>
      ih hc fun a ha => step a (by simp [ha])

/-- A fold comes to a result of which an invariant holds that depends on what was visited. -/
theorem foldlM_upTo {f : β → α → Checked β} {R : List α → β → Prop} {l : List α} {b : β}
    (start : R [] b)
    (step : ∀ visited a rest, visited ++ a :: rest = l → ∀ b, R visited b →
      Returns (f b a) (R (visited ++ [a]))) : Returns (l.foldlM f b) (R l) := by
  have key : ∀ l' visited b, visited ++ l' = l → R visited b → Returns (l'.foldlM f b) (R l) := by
    intro l'
    induction l' with
    | nil =>
      intro visited b hl hR
      rw [List.append_nil] at hl
      exact pure_iff.2 (hl ▸ hR)
    | cons a l' ih =>
      intro visited b hl hR
      rw [List.foldlM_cons]
      refine (step visited a l' hl b hR).bind fun c _ hc => ?_
      exact ih (visited ++ [a]) c (by simpa using hl) hc
  exact key l [] b rfl start

theorem mapM {f : α → Checked β} {R : α → β → Prop} {l : List α}
    (h : ∀ a ∈ l, Returns (f a) (R a)) : Returns (l.mapM f) (List.Forall₂ R l) := by
  induction l with
  | nil => simp
  | cons a l ih =>
    rw [List.mapM_cons]
    refine (h a (by simp)).bind fun b _ hb =>
      (ih fun a ha => h a (by simp [ha])).bind fun r _ hr => ?_
    simp [hb, hr]

theorem findSomeM? {f : α → Checked (Option β)} {R : β → Prop} {l : List α}
    (h : ∀ a ∈ l, Returns (f a) fun r => ∀ b, r = some b → R b) :
    Returns (l.findSomeM? f) fun r => ∀ b, r = some b → R b := by
  induction l with
  | nil => exact pure_iff.2 nofun
  | cons a l ih =>
    rw [List.findSomeM?_cons]
    refine (h a (by simp)).bind fun r _ hr => ?_
    cases r with
    | none => exact ih fun a ha => h a (by simp [ha])
    | some b => exact pure_iff.2 hr

/-- Whatever is asked of what is found holds of nothing. -/
theorem pure_none {R : β → Prop} :
    Returns (pure none : Checked (Option β)) fun r => ∀ b, r = some b → R b :=
  pure_iff.2 (by simp)

theorem anyM {f : α → Checked Bool} {l : List α} (h : ∀ a ∈ l, Returns (f a) fun _ => True) :
    Returns (l.anyM f) fun _ => True := by
  induction l with
  | nil => exact pure_iff.2 trivial
  | cons a l ih =>
    rw [List.anyM_cons]
    refine (h a (by simp)).bind fun r _ _ => ?_
    cases r with
    | true => exact pure_iff.2 trivial
    | false => exact ih fun a ha => h a (by simp [ha])

theorem allM {f : α → Checked Bool} {l : List α} (h : ∀ a ∈ l, Returns (f a) fun _ => True) :
    Returns (l.allM f) fun _ => True := by
  induction l with
  | nil => exact pure_iff.2 trivial
  | cons a l ih =>
    rw [List.allM_cons]
    refine (h a (by simp)).bind fun r _ _ => ?_
    cases r with
    | true => exact ih fun a ha => h a (by simp [ha])
    | false => exact pure_iff.2 trivial

theorem findM? {f : α → Checked Bool} {l : List α} (h : ∀ a ∈ l, Returns (f a) fun _ => True) :
    Returns (l.findM? f) fun _ => True := by
  induction l with
  | nil => exact pure_iff.2 trivial
  | cons a l ih =>
    rw [List.findM?]
    refine (h a (by simp)).bind fun r _ _ => ?_
    cases r with
    | true => exact pure_iff.2 trivial
    | false => exact ih fun a ha => h a (by simp [ha])

theorem filterMapM {f : α → Checked (Option β)} {R : β → Prop} {l : List α}
    (h : ∀ a ∈ l, Returns (f a) fun r => ∀ b, r = some b → R b) :
    Returns (l.filterMapM f) fun r => ∀ b ∈ r, R b := by
  induction l with
  | nil => simp
  | cons a l ih =>
    rw [List.filterMapM_cons]
    refine (h a (by simp)).bind fun r _ hr => ?_
    cases r with
    | none => exact ih fun a ha => h a (by simp [ha])
    | some b =>
      refine (ih fun a ha => h a (by simp [ha])).bind fun bs _ hbs => ?_
      simpa using ⟨hr b rfl, hbs⟩

theorem filterM {p : α → Checked Bool} {l : List α} (h : ∀ a ∈ l, Returns (p a) fun _ => True) :
    Returns (l.filterM p) fun r => ∀ a ∈ r, a ∈ l := by
  have key : ∀ l acc : List α, (∀ a ∈ l, Returns (p a) fun _ => True) →
      ∃ r, l.filterAuxM p acc = .ok r := by
    intro l
    induction l with
    | nil => exact fun acc _ => ⟨acc, rfl⟩
    | cons a l ih =>
      intro acc h
      obtain ⟨keep, hkeep, -⟩ := h a (by simp)
      obtain ⟨r, hr⟩ := ih (bif keep then a :: acc else acc) fun a ha => h a (by simp [ha])
      exact ⟨r, by simpa only [List.filterAuxM, hkeep, Checked.ok_bind] using hr⟩
  obtain ⟨r, hr⟩ := key l [] h
  have hfilter : l.filterM p = .ok r.reverse := by
    simp only [List.filterM, hr, Checked.ok_bind]
    rfl
  exact ⟨r.reverse, hfilter, fun a ha => Checked.mem_of_filterM hfilter ha⟩

end Returns

end Decompiler
