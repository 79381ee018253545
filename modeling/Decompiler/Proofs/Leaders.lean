import Decompiler.Leaders
import Decompiler.Proofs.Checked

/-!
# Merging leaders never fails

Links without a cycle stay without one: redirecting a link to the leader it leads to changes no
leader, and linking one unique variable to another makes every way longer by one step at most.

* `Leaders.Acyclic`: every variable has a leader. This can be decided on the links.
* `Leaders.Acyclic.merge`: two variables can be merged, and every variable still has a leader. So it
  is with all links that merging makes (`Leaders.acyclic_of_merges`).
-/

namespace Decompiler

namespace Table

variable {κ α : Type} [DecidableEq κ] {t : Table κ α} {k : κ} {v : α}

theorem mem_entries_of_get? (h : t.get? k = some v) : (k, v) ∈ t.entries := by
  obtain ⟨⟨j, w⟩, hfind, rfl⟩ := Option.map_eq_some_iff.1 h
  obtain rfl : j = k := by simpa using List.find?_some hfind
  exact List.mem_of_find?_eq_some hfind

/-- Where keys are not repeated, every entry is found under its key. -/
theorem get?_of_mem (h : t.keys.Nodup) (hmem : (k, v) ∈ t.entries) : t.get? k = some v := by
  obtain ⟨entries⟩ := t
  simp only [keys, get?] at h hmem ⊢
  induction entries with
  | nil => cases hmem
  | cons e rest ih =>
    obtain ⟨hfresh, hrest⟩ := List.nodup_cons.1 h
    rcases List.mem_cons.1 hmem with rfl | hmem
    · simp
    · have hne : e.1 ≠ k := fun he => hfresh (he ▸ List.mem_map_of_mem hmem)
      rw [List.find?_cons_of_neg (by simpa using hne)]
      exact ih hrest hmem

theorem get?_eq_none_iff : t.get? k = none ↔ k ∉ t.keys := by
  rw [get?, Option.map_eq_none_iff, List.find?_eq_none, keys, List.mem_map]
  simp only [decide_eq_true_eq, not_exists, not_and]

/-- One value is set for several keys. -/
theorem get?_foldl_insert (l : List κ) (t : Table κ α) (v : α) (k : κ) :
    (l.foldl (fun t i => t.insert i v) t).get? k = if k ∈ l then some v else t.get? k := by
  induction l generalizing t with
  | nil => simp
  | cons i l ih =>
    rw [List.foldl_cons, ih, get?_insert]
    by_cases hl : k ∈ l
    · simp [hl]
    · simp [hl, eq_comm]

/-- The keys after a value was set: a new key goes to the end. -/
theorem keys_insert (t : Table κ α) (k : κ) (v : α) :
    (t.insert k v).keys = if k ∈ t.keys then t.keys else t.keys ++ [k] := by
  obtain ⟨l⟩ := t
  unfold insert keys
  induction l with
  | nil => rfl
  | cons e rest ih =>
    by_cases he : e.1 = k
    · simp [upsert, he]
    · simp only [upsert, he, if_false, List.map_cons, ih, List.mem_cons, Ne.symm he, false_or]
      split <;> rfl

theorem mem_keys_insert {j : κ} : j ∈ (t.insert k v).keys ↔ j ∈ t.keys ∨ j = k := by
  rw [keys_insert]
  split
  · next hk =>
    refine ⟨.inl, fun h => ?_⟩
    rcases h with h | rfl
    · exact h
    · exact hk
  · simp

theorem nodup_keys_insert (h : t.keys.Nodup) (k : κ) (v : α) : (t.insert k v).keys.Nodup := by
  rw [keys_insert]
  split
  · exact h
  · next hk =>
    refine List.nodup_append.2 ⟨h, by simp, fun a ha b hb hab => ?_⟩
    rw [List.mem_singleton.1 hb] at hab
    exact hk (hab ▸ ha)

theorem mem_entries_insert {p : κ × α} (h : p ∈ (t.insert k v).entries) :
    p ∈ t.entries ∨ p = (k, v) := by
  obtain ⟨l⟩ := t
  unfold insert at h
  induction l with
  | nil => exact .inr (List.mem_singleton.1 h)
  | cons e rest ih =>
    simp only [upsert] at h
    split at h
    · rcases List.mem_cons.1 h with rfl | h
      · exact .inr rfl
      · exact .inl (List.mem_cons_of_mem e h)
    · rcases List.mem_cons.1 h with rfl | h
      · exact .inl List.mem_cons_self
      · exact (ih h).imp_left (List.mem_cons_of_mem e)

theorem size_insert (t : Table κ α) (k : κ) (v : α) :
    (t.insert k v).size = if k ∈ t.keys then t.size else t.size + 1 := by
  have hsize : ∀ t : Table κ α, t.size = t.keys.length := fun t => (List.length_map _).symm
  rw [hsize, hsize, keys_insert]
  split <;> simp

end Table

namespace Leaders

variable {t t' : Leaders} {v w l : Local} {n k : ℕ}

/-- Every variable has a leader. -/
def Acyclic (t : Leaders) : Prop := ∀ v ∈ t.links.keys, Returns (t.leader v) fun _ => True

instance (t : Leaders) : Decidable t.Acyclic :=
  inferInstanceAs (Decidable (∀ v ∈ t.links.keys, _))

theorem isUnique_iff : t.isUnique v = true ↔ t.links.get? v = none := by
  simp [isUnique, Table.contains]

theorem follow_unique (h : t.links.get? v = none) : t.follow n v = .ok v := by
  cases n <;> simp [follow, h, isUnique_iff.2 h]

/-- A variable with a link leads where the link leads, in one step less. -/
theorem follow_link (hv : t.links.get? v = some w) :
    t.follow n v = .ok l ↔ ∃ k, n = k + 1 ∧ t.follow k w = .ok l := by
  cases n with
  | zero => simp [follow, isUnique, Table.contains, hv]
  | succ n => simp [follow, hv]

theorem unique_of_follow (h : t.follow n v = .ok l) : t.links.get? l = none := by
  induction n generalizing v with
  | zero =>
    rw [follow] at h
    split at h
    · next hv =>
      cases h
      exact isUnique_iff.1 hv
    · cases h
  | succ n ih =>
    cases hv : t.links.get? v with
    | none =>
      rw [follow_unique hv] at h
      cases h
      exact hv
    | some w =>
      obtain ⟨k, hk, h⟩ := (follow_link hv).1 h
      obtain rfl : n = k := by omega
      exact ih h

theorem follow_mono (h : t.follow n v = .ok l) (hk : n ≤ k) : t.follow k v = .ok l := by
  induction n generalizing v k with
  | zero =>
    rw [follow] at h
    split at h
    · next hv =>
      cases h
      exact follow_unique (isUnique_iff.1 hv)
    · cases h
  | succ n ih =>
    cases hv : t.links.get? v with
    | none =>
      rw [follow_unique hv] at h ⊢
      exact h
    | some w =>
      obtain ⟨j, hj, h⟩ := (follow_link hv).1 h
      obtain rfl : n = j := by omega
      refine (follow_link hv).2 ⟨k - 1, by omega, ih h (by omega)⟩

theorem follow_inj (h : t.follow n v = .ok l) (h' : t.follow k v = .ok w) : l = w := by
  rcases Nat.le_total n k with hk | hk
  · have := follow_mono h hk
    rw [h'] at this
    cases this
    rfl
  · have := follow_mono h' hk
    rw [h] at this
    cases this
    rfl

theorem Acyclic.leader (h : t.Acyclic) (v : Local) : ∃ l, t.leader v = .ok l := by
  by_cases hv : v ∈ t.links.keys
  · obtain ⟨l, hl, -⟩ := h v hv
    exact ⟨l, hl⟩
  · exact ⟨v, follow_unique (Table.get?_eq_none_iff.2 hv)⟩

/-! ## Redirecting links -/

/-- Every way to a leader is there with at most as many steps. -/
def Shortens (t t' : Leaders) : Prop :=
  t'.size = t.size ∧ ∀ n v l, t.follow n v = .ok l → t'.follow n v = .ok l

theorem Shortens.leader (h : Shortens t t') (hv : t.leader v = .ok l) : t'.leader v = .ok l := by
  rw [Leaders.leader, h.1]
  exact h.2 _ v l hv

theorem shortens_insert (hv : t.links.get? v = some w) (hl : t.follow n v = .ok l) :
    Shortens t ⟨t.links.insert v l⟩ := by
  have hmem : v ∈ t.links.keys := by
    by_contra hmem
    rw [Table.get?_eq_none_iff.2 hmem] at hv
    cases hv
  have hunique := unique_of_follow hl
  have hlv : v ≠ l := by
    rintro rfl
    rw [hunique] at hv
    cases hv
  have hunique' : (t.links.insert v l).get? l = none := by
    rw [Table.get?_insert, if_neg hlv, hunique]
  refine ⟨(Table.size_insert _ _ _).trans (if_pos hmem), fun k => ?_⟩
  induction k with
  | zero =>
    intro x r hx
    rw [follow] at hx
    split at hx
    · next hxu =>
      cases hx
      have hxu := isUnique_iff.1 hxu
      refine follow_unique ?_
      rw [Table.get?_insert, if_neg, hxu]
      rintro rfl
      rw [hxu] at hv
      cases hv
    · cases hx
  | succ k ih =>
    intro x r hx
    by_cases hxv : v = x
    · -- the way of `v` itself now ends after one step
      subst hxv
      obtain rfl := follow_inj hl hx
      refine (follow_link ((Table.get?_insert _ _ _ _).trans (if_pos rfl))).2 ⟨k, rfl, ?_⟩
      exact follow_unique hunique'
    · have hget : (t.links.insert v l).get? x = t.links.get? x := by
        rw [Table.get?_insert, if_neg hxv]
      cases hxl : t.links.get? x with
      | none =>
        rw [follow_unique hxl] at hx
        cases hx
        exact follow_unique (hget.trans hxl)
      | some y =>
        obtain ⟨j, hj, hy⟩ := (follow_link hxl).1 hx
        obtain rfl : k = j := by omega
        exact (follow_link (hget.trans hxl)).2 ⟨k, rfl, ih y r hy⟩

theorem redirect_returns (h : t.follow n v = .ok l) : Returns (redirect l n t v) (Shortens t) := by
  induction n generalizing t v with
  | zero =>
    rw [follow] at h
    split at h
    · cases h
      rw [redirect, if_pos rfl]
      exact ⟨t, rfl, rfl, fun _ _ _ h => h⟩
    · cases h
  | succ n ih =>
    rw [redirect]
    split
    · exact ⟨t, rfl, rfl, fun _ _ _ h => h⟩
    · next hvl =>
      cases hv : t.links.get? v with
      | none =>
        rw [follow_unique hv] at h
        cases h
        exact absurd rfl hvl
      | some w =>
        have hs := shortens_insert hv h
        obtain ⟨k, hk, hw⟩ := (follow_link hv).1 h
        obtain rfl : n = k := by omega
        obtain ⟨t', ht', hs'⟩ := ih (hs.2 n w l hw)
        exact ⟨t', ht', hs'.1.trans hs.1, fun k x r hx => hs'.2 k x r (hs.2 k x r hx)⟩

theorem find_returns (h : t.leader v = .ok l) :
    Returns (t.find v) fun r => Shortens t r.1 ∧ r.2 = l := by
  obtain ⟨t', ht', hs⟩ := redirect_returns h
  exact ⟨(t', l), by simp [find, h, ht'], hs, rfl⟩

/-! ## Linking leaders -/

/-- Linking one unique variable to another makes no way longer by more than one step, and only ways
that ended at the one go on to the other. -/
theorem follow_insert {source target : Local} (hs : t.links.get? source = none)
    (ht : t.links.get? target = none) (hne : source ≠ target) (h : t.follow n v = .ok l) :
    (⟨t.links.insert source target⟩ : Leaders).follow (n + 1) v =
      .ok (if l = source then target else l) := by
  have htarget : (t.links.insert source target).get? target = none := by
    rw [Table.get?_insert, if_neg hne, ht]
  have hget : ∀ x, x ≠ source → (t.links.insert source target).get? x = t.links.get? x := by
    intro x hx
    rw [Table.get?_insert, if_neg hx.symm]
  have hunique : ∀ n x, t.links.get? x = none →
      (⟨t.links.insert source target⟩ : Leaders).follow (n + 1) x =
        .ok (if x = source then target else x) := by
    intro n x hx
    by_cases hxs : x = source
    · rw [if_pos hxs]
      refine (follow_link ?_).2 ⟨n, rfl, follow_unique htarget⟩
      rw [Table.get?_insert, if_pos hxs.symm]
    · rw [if_neg hxs]
      exact follow_unique ((hget x hxs).trans hx)
  induction n generalizing v with
  | zero =>
    rw [follow] at h
    split at h
    · next hu =>
      cases h
      exact hunique 0 _ (isUnique_iff.1 hu)
    · cases h
  | succ n ih =>
    cases hv : t.links.get? v with
    | none =>
      rw [follow_unique hv] at h
      cases h
      exact hunique (n + 1) _ hv
    | some w =>
      have hvs : v ≠ source := by
        rintro rfl
        cases hv.symm.trans hs
      obtain ⟨k, hk, hw⟩ := (follow_link hv).1 h
      obtain rfl : n = k := by omega
      exact (follow_link ((hget v hvs).trans hv)).2 ⟨n + 1, rfl, ih hw⟩

/-- Two variables can be merged: all that had the leader of the one then have that of the other, and
there is one link more, unless they had the same leader. -/
theorem merge_returns {source target ls lt : Local} (hls : t.leader source = .ok ls)
    (hlt : t.leader target = .ok lt) :
    Returns (t.merge source target) fun t' =>
      t'.size = (if ls = lt then t.size else t.size + 1) ∧
        ∀ v l, t.leader v = .ok l → t'.leader v = .ok (if l = ls then lt else l) := by
  obtain ⟨⟨t₁, lt'⟩, h₁, hs₁, hlt'⟩ := find_returns hlt
  obtain rfl : lt' = lt := hlt'
  obtain ⟨⟨t₂, ls'⟩, h₂, hs₂, hls'⟩ := find_returns (hs₁.leader hls)
  obtain rfl : ls' = ls := hls'
  have hkeep : ∀ v l, t.leader v = .ok l → t₂.leader v = .ok l := fun v l hv =>
    hs₂.leader (hs₁.leader hv)
  have hsize : t₂.size = t.size := hs₂.1.trans hs₁.1
  simp only [Leaders.merge, h₁, h₂, Checked.ok_bind, Returns.pure_iff]
  split
  · next heq =>
    refine ⟨hsize, fun v l hv => ?_⟩
    rw [hkeep v l hv, heq]
    split
    · next hl => rw [hl]
    · rfl
  · next hne =>
    have hsource := unique_of_follow (hkeep source _ hls)
    have htarget := unique_of_follow (hkeep target _ hlt)
    have hlinked : (⟨t₂.links.insert ls' lt'⟩ : Leaders).size = t₂.size + 1 :=
      (Table.size_insert _ _ _).trans (if_neg (Table.get?_eq_none_iff.1 hsource))
    refine ⟨hlinked.trans (congrArg (· + 1) hsize), fun v l hv => ?_⟩
    rw [Leaders.leader, hlinked]
    exact follow_insert hsource htarget hne (hkeep v l hv)

/-- Two variables can be merged, and every variable still has a leader. -/
theorem Acyclic.merge (h : t.Acyclic) (source target : Local) :
    Returns (t.merge source target) Acyclic := by
  obtain ⟨lt, hlt⟩ := h.leader target
  obtain ⟨ls, hls⟩ := h.leader source
  refine (merge_returns hls hlt).mono fun t' ht' v _ => ?_
  obtain ⟨l, hl⟩ := h.leader v
  exact ⟨_, ht'.2 v l hl, trivial⟩

/-- Whatever was merged, and in whatever order, every variable has a leader. -/
theorem acyclic_of_merges (merges : List (Local × Local)) :
    Returns (merges.foldlM (fun t p => t.merge p.1 p.2) empty) Acyclic :=
  Returns.foldlM nofun fun p _ _ h => h.merge p.1 p.2

end Leaders

end Decompiler
