import Decompiler.Proofs.Variables.Renaming

/-!
# Which variables are merged

What it takes for two variables to be merged because the one starts where the other has died.

* `Graph.mem_places`: the table of occurrences knows of every occurrence.
* `Graph.Succession`: a leaf assigns to one variable, and later, when it is through with that one,
  to another one that it did not use until then. The first one occurs nowhere else.
* `Method.candidate?_reuse`: where copies do not join variables, candidates come from successions.
-/

namespace Decompiler

/-! ## Occurrences -/

/-- The entries of a key, in a table to which entries are added at the end of their key's list. -/
theorem Table.getD_foldl_alter {κ α : Type} [DecidableEq κ] (l : List (κ × α))
    (t : Table κ (List α)) (k : κ) :
    ((l.foldl (fun t v => t.alter v.1 fun l => l.getD [] ++ [v.2]) t).get? k).getD [] =
      (t.get? k).getD [] ++ (l.filter fun v => v.1 = k).map Prod.snd := by
  induction l generalizing t with
  | nil => simp
  | cons v l ih =>
    rw [List.foldl_cons, ih, alter, get?_insert]
    by_cases hv : v.1 = k
    · subst hv
      simp
    · simp [hv]

theorem Table.nodup_keys_foldl_alter {κ α : Type} [DecidableEq κ] (l : List (κ × α))
    {t : Table κ (List α)} (h : t.keys.Nodup) :
    (l.foldl (fun t v => t.alter v.1 fun l => l.getD [] ++ [v.2]) t).keys.Nodup := by
  induction l generalizing t with
  | nil => exact h
  | cons v l ih => exact ih (nodup_keys_insert h _ _)

namespace Graph

variable {g : Graph} {s : StatId} {e : ExprId} {st : Stat} {occ : Occurrences}

theorem occurrences_eq_ok (h : g.occurrences = .ok occ) : occ.keys.Nodup ∧
    ∀ s st, g.InTree s → g.stat s = .ok st → ∀ p ∈ placedExprs s st,
      g.Grounded p.1 ∧ ∀ v, g.Involves p.1 v → p.2 ∈ (occ.get? v).getD [] := by
  simp only [occurrences, Checked.bind_eq_ok, Checked.pure_eq_ok, Checked.mapM_eq_ok_iff] at h
  obtain ⟨stats, hstats, placed, hplaced, vars, hvars, rfl⟩ := h
  refine ⟨Table.nodup_keys_foldl_alter _ List.nodup_nil, fun s st hs hst p hp => ?_⟩
  obtain ⟨l, hl, st', hst', rfl⟩ := Checked.exists_of_mem hplaced ((mem_preorderIn hstats s).2 hs)
  rw [hst] at hst'
  cases hst'
  obtain ⟨l, hl, refs, hrefs, rfl⟩ :=
    Checked.exists_of_mem hvars (List.mem_flatten.2 ⟨_, hl, hp⟩)
  have hground : g.Grounded p.1 := by
    obtain ⟨nodes, hnodes, -⟩ := Checked.bind_eq_ok.1 hrefs
    exact grounded_of_nodes hnodes
  refine ⟨hground, fun v hv => ?_⟩
  obtain ⟨r, hr, rfl⟩ := (mem_refsIn_iff_involves hrefs).2 hv
  rw [Table.getD_foldl_alter]
  refine List.mem_append_right _ (List.mem_map.2 ⟨(r.2.var, p.2), ?_, rfl⟩)
  exact List.mem_filter.2 ⟨List.mem_flatten.2 ⟨_, hl, List.mem_map_of_mem hr⟩, by simp⟩

/-- The place of an expression of a leaf. -/
theorem mem_placedExprs_leaf {exprs : List ExprId} {i : ℕ} (h : st.exprs? = some exprs)
    (he : exprs[i]? = some e) : (e, ⟨s, some i⟩) ∈ placedExprs s st := by
  refine List.mem_append_left _ ?_
  rw [h]
  exact List.mem_map.2 ⟨(e, i), List.mem_zipIdx_iff_getElem?.2 he, rfl⟩

/-- Every expression that a statement evaluates has a place there. -/
theorem exists_mem_placedExprs (h : e ∈ st.kind.exprs) :
    ∃ place, (e, place) ∈ placedExprs s st ∧ place.stat = s := by
  cases hexprs : st.exprs? with
  | none =>
    refine ⟨⟨s, none⟩, List.mem_append_left _ ?_, rfl⟩
    rw [hexprs, Stat.ownExprs_eq]
    exact List.mem_map_of_mem h
  | some exprs =>
    rw [Stat.exprs?_eq_some.1 hexprs] at h
    obtain ⟨i, hi⟩ := List.mem_iff_getElem?.1 h
    exact ⟨⟨s, some i⟩, mem_placedExprs_leaf hexprs hi, rfl⟩

/-! ## Successions -/

/-- A leaf evaluates `before`, then assigns to `o` in `opening`, evaluates `between`, assigns to `l`
in `closing` and evaluates `after`. It does not use `l` until then, and nothing uses `o` from then
on, or in another place. -/
structure Succession (g : Graph) (o l : Local) (s : StatId) (before : List ExprId)
    (opening : ExprId) (between : List ExprId) (closing : ExprId) (after : List ExprId) : Prop where
  /-- The leaf is in the tree. -/
  inTree : g.InTree s
  /-- Its expressions. -/
  leaf : Returns (g.stat s) fun st =>
    st.exprs? = some (before ++ opening :: (between ++ closing :: after))
  /-- Where the one variable starts. -/
  opens : ∃ right, g.assigned? opening = .ok (some (o, right))
  /-- Where the other one starts. -/
  closes : ∃ right, g.assigned? closing = .ok (some (l, right)) ∧ ¬ g.Involves right l
  /-- The one does not occur before it starts. -/
  fresh : ∀ e ∈ before, ¬ g.Involves e o
  /-- The one has died. -/
  dead : ∀ e ∈ closing :: after, ¬ g.Involves e o
  /-- The other one does not occur before it starts. -/
  later : ∀ e ∈ before ++ opening :: between, ¬ g.Involves e l
  /-- The one does not occur anywhere else. -/
  elsewhere : ∀ t e, t ≠ s → g.Owns t e → ¬ g.Involves e o

end Graph

theorem mem_positionsIn {s : StatId} {places : List Place} {l : List ℕ}
    (h : positionsIn s places = some l) {p : Place} (hp : p ∈ places) :
    p.stat = s ∧ ∃ i ∈ l, p.position = some i := by
  induction places generalizing l with
  | nil => cases hp
  | cons q places ih =>
    simp only [positionsIn, List.mapM_cons, Option.bind_eq_bind, Option.bind_eq_some_iff,
      Option.pure_def, Option.some.injEq] at h
    obtain ⟨i, hi, rest, hrest, rfl⟩ := h
    rcases List.mem_cons.1 hp with rfl | hp
    · split at hi
      · next hs => exact ⟨hs, i, by simp, hi⟩
      · cases hi
    · obtain ⟨hs, j, hj, hpos⟩ := ih hrest hp
      exact ⟨hs, j, by simp [hj], hpos⟩

namespace Method

open Decompiler.Graph

variable {m : Method} {occ : Occurrences} {a : LeafAssignment} {o : Local} {places : List Place}

/-- What it means that a variable has died before an assignment. -/
theorem diesBefore_eq_true (h : m.diesBefore occ a o places = .ok true) :
    ∃ positions first opening right, positionsIn a.stat places = some positions ∧
      (∀ i ∈ positions, first ≤ i ∧ i < a.position) ∧ first < a.position ∧
      a.exprs[first]? = some opening ∧ m.graph.assigned? opening = .ok (some (o, right)) ∧
      (∀ q ∈ (occ.get? a.left).getD [], q.stat = a.stat → ∀ i, q.position = some i →
        a.position ≤ i) ∧
      ¬ m.graph.Involves a.right a.left := by
  unfold diesBefore at h
  split at h
  · next p ps hpositions =>
    dsimp only at h
    split at h
    · next opening hopening =>
      simp only [Checked.bind_eq_ok, Checked.pure_eq_ok, Bool.and_eq_true, decide_eq_true_eq,
        Bool.not_eq_true'] at h
      obtain ⟨assigned, hassigned, refs, hrefs, ⟨⟨hbefore, hfirst⟩, hlater⟩, hread⟩ := h
      obtain ⟨⟨w, right⟩, rfl, rfl⟩ := Option.map_eq_some_iff.1 hfirst
      have hmin : (p :: ps).min? = some (ps.foldl min p) := List.min?_cons'
      have hmin := List.min?_eq_some_iff.1 hmin
      rw [List.all_eq_true] at hbefore
      have hbefore : ∀ i ∈ p :: ps, i < a.position := by simpa using hbefore
      refine ⟨p :: ps, _, opening, right, hpositions, fun i hi => ⟨hmin.2 i hi, hbefore i hi⟩,
        hbefore _ hmin.1, hopening, hassigned, fun q hq hs i hi => ?_, fun hinv => ?_⟩
      · have := List.all_eq_true.1 hlater q hq
        simpa [hs, hi] using this
      · obtain ⟨r, hr, hvar⟩ := (mem_refsIn_iff_involves hrefs).2 hinv
        have := List.any_eq_false.1 hread r hr
        simp [hvar] at this
    · cases h
  · cases h

/-- No leaf assigns to a variable another version of its slot, or the variable itself. -/
def CopiesApart (m : Method) : Prop :=
  ∀ s st exprs e v right w, m.graph.InTree s → m.graph.stat s = .ok st → st.exprs? = some exprs →
    e ∈ exprs → m.graph.assigned? e = .ok (some (v, right)) → m.graph.local? right = .ok (some w) →
    m.vars.slotOf w.index ≠ m.vars.slotOf v.index

theorem copyCandidate?_eq_some {refused : List Candidate} {c : Candidate}
    (h : m.copyCandidate? refused a = .ok (some c)) :
    ∃ w, m.graph.local? a.right = .ok (some w) ∧ w ≠ a.left ∧
      m.vars.slotOf w.index = m.vars.slotOf a.left.index ∧ c = .ofPair a.left w := by
  obtain ⟨w?, hw, h⟩ := Checked.bind_eq_ok.1 h
  cases w? with
  | none => cases h
  | some w =>
    dsimp only at h
    split at h
    · next hcond =>
      simp only [Bool.and_eq_true, decide_eq_true_eq] at hcond
      exact ⟨w, hw, hcond.1.1, hcond.1.2, (Option.some.inj (Checked.pure_eq_ok.1 h)).symm⟩
    · cases h

theorem reuseCandidate?_eq_some {arrange : Occurrences → Occurrences} {refused : List Candidate}
    {c : Candidate} (harrange : ∀ occ, (arrange occ).entries.Perm occ.entries)
    (h : m.reuseCandidate? arrange refused occ a = .ok (some c)) :
    ∃ o places, (o, places) ∈ occ.entries ∧ o ≠ a.left ∧
      m.vars.slotOf o.index = m.vars.slotOf a.left.index ∧
      m.diesBefore occ a o places = .ok true ∧ c = .ofPair a.left o := by
  obtain ⟨x, hx, h⟩ := Checked.bind_eq_ok.1 h
  rcases ite_eq_iff.1 h with ⟨-, h⟩ | ⟨-, h⟩
  · cases h
  · obtain ⟨⟨o, places⟩, hmem, h⟩ := Checked.exists_of_findSomeM? h
    dsimp only at h
    split at h
    · cases h
    · next hne =>
      split at h
      · cases h
      · next hslot =>
        obtain ⟨dies, hdies, h⟩ := Checked.bind_eq_ok.1 h
        split at h
        · next hcond =>
          obtain ⟨rfl, -⟩ := (Bool.and_eq_true _ _).mp hcond
          exact ⟨o, places, (harrange occ).mem_iff.1 hmem, hne, not_not.1 hslot, hdies,
            (Option.some.inj (Checked.pure_eq_ok.1 h)).symm⟩
        · cases h

/-- Where a candidate comes from: a copy, or a variable that has died. -/
theorem candidate?_eq_some {arrange : Occurrences → Occurrences} {refused : List Candidate}
    {c : Candidate} (h : m.candidate? arrange refused = .ok (some c)) :
    ∃ occ s st exprs i e left right, m.graph.occurrences = .ok occ ∧ m.graph.InTree s ∧
      m.graph.stat s = .ok st ∧ st.exprs? = some exprs ∧ exprs[i]? = some e ∧
      m.graph.assigned? e = .ok (some (left, right)) ∧
      (m.copyCandidate? refused ⟨s, exprs, i, left, right⟩ = .ok (some c) ∨
        m.reuseCandidate? arrange refused occ ⟨s, exprs, i, left, right⟩ = .ok (some c)) := by
  simp only [candidate?, Checked.bind_eq_ok] at h
  obtain ⟨occ, hocc, stats, hstats, h⟩ := h
  obtain ⟨s, hs, h⟩ := Checked.exists_of_findSomeM? h
  obtain ⟨st, hst, h⟩ := Checked.bind_eq_ok.1 h
  obtain ⟨⟨e, i⟩, hi, h⟩ := Checked.exists_of_findSomeM? h
  obtain ⟨assigned, hassigned, h⟩ := Checked.bind_eq_ok.1 h
  cases hexprs : st.exprs? with
  | none => simp [hexprs] at hi
  | some exprs =>
    rw [hexprs] at hi h
    cases assigned with
    | none => cases h
    | some p =>
      refine ⟨occ, s, st, exprs, i, e, p.1, p.2, hocc, (mem_preorderIn hstats s).1 hs, hst, hexprs,
        List.mem_zipIdx_iff_getElem?.1 hi, hassigned, ?_⟩
      obtain ⟨copied, hcopied, h⟩ := Checked.bind_eq_ok.1 h
      cases copied with
      | none => exact .inr h
      | some c' =>
        cases Checked.pure_eq_ok.1 h
        exact .inl hcopied

theorem exists_split {α : Type} {l : List α} {i : ℕ} {a : α} (h : l[i]? = some a) :
    ∃ before after, l = before ++ a :: after ∧ before.length = i := by
  obtain ⟨hi, rfl⟩ := List.getElem?_eq_some_iff.1 h
  exact ⟨l.take i, l.drop (i + 1), by simp, by simp; omega⟩

theorem exists_index_of_mem {α : Type} {l A B C : List α} (h : l = A ++ (B ++ C)) {a : α}
    (ha : a ∈ B) : ∃ j, A.length ≤ j ∧ j < A.length + B.length ∧ l[j]? = some a := by
  obtain ⟨j, hj⟩ := List.mem_iff_getElem?.1 ha
  have hlt : j < B.length := (List.getElem?_eq_some_iff.1 hj).1
  refine ⟨A.length + j, by omega, by omega, ?_⟩
  rw [h, List.getElem?_append_right (by omega), List.getElem?_append_left (by omega),
    Nat.add_sub_cancel_left, hj]

/-- Where copies do not join variables, a candidate comes from a variable that starts in a leaf
where another one of its slot has died. -/
theorem candidate?_reuse {arrange : Occurrences → Occurrences} {refused : List Candidate}
    {c : Candidate} (harrange : ∀ occ, (arrange occ).entries.Perm occ.entries)
    (hcopies : m.CopiesApart) (h : m.candidate? arrange refused = .ok (some c)) :
    ∃ o l s before opening between closing after,
      m.graph.Succession o l s before opening between closing after ∧ o ≠ l ∧
        m.vars.slotOf o.index = m.vars.slotOf l.index ∧ c = .ofPair l o := by
  obtain ⟨occ, s, st, exprs, i, e, l, right, hocc, hs, hst, hexprs, hi, hassigned, h⟩ :=
    candidate?_eq_some h
  rcases h with h | h
  · obtain ⟨w, hw, -, hslot, -⟩ := copyCandidate?_eq_some h
    exact absurd hslot (hcopies s st exprs e l right w hs hst hexprs (List.mem_of_getElem? hi)
      hassigned hw)
  · obtain ⟨o, places, hentry, hne, hslot, hdies, rfl⟩ := reuseCandidate?_eq_some harrange h
    obtain ⟨positions, first, opening, right', hpositions, hrange, hfirst, hopening, hopens, hlater,
      hread⟩ := diesBefore_eq_true hdies
    obtain ⟨hnodup, hplaces⟩ := occurrences_eq_ok hocc
    have hget : (occ.get? o).getD [] = places := by rw [Table.get?_of_mem hnodup hentry]; rfl
    -- the positions at which the two variables may occur in the leaf
    have hone : ∀ j x, exprs[j]? = some x → m.graph.Involves x o → first ≤ j ∧ j < i := by
      intro j x hx hinv
      have hplace := (hplaces s st hs hst _ (mem_placedExprs_leaf hexprs hx)).2 o hinv
      obtain ⟨-, k, hk, hpos⟩ := mem_positionsIn hpositions (hget ▸ hplace)
      cases hpos
      exact hrange j hk
    have hother : ∀ j x, exprs[j]? = some x → m.graph.Involves x l → i ≤ j := by
      intro j x hx hinv
      have hplace := (hplaces s st hs hst _ (mem_placedExprs_leaf hexprs hx)).2 l hinv
      exact hlater _ hplace rfl j rfl
    obtain ⟨before, rest, hsplit, hlen⟩ := exists_split hopening
    dsimp only at hfirst hsplit
    have hrest : rest[i - first - 1]? = some e := by
      rw [hsplit, List.getElem?_append_right (by omega)] at hi
      rw [hlen, show i - first = i - first - 1 + 1 by omega, List.getElem?_cons_succ] at hi
      exact hi
    obtain ⟨between, after, rfl, hlen'⟩ := exists_split hrest
    have hexprs_eq : exprs = before ++ opening :: (between ++ e :: after) := hsplit
    refine ⟨o, l, s, before, opening, between, e, after, ⟨hs, ⟨st, hst, hexprs_eq ▸ hexprs⟩,
      ⟨right', hopens⟩, ⟨right, hassigned, hread⟩, fun x hx hinv => ?_, fun x hx hinv => ?_,
      fun x hx hinv => ?_, fun t x hts hown hinv => ?_⟩, hne, hslot, rfl⟩
    · obtain ⟨j, -, hj, hget⟩ := exists_index_of_mem (A := [])
        (C := opening :: (between ++ e :: after)) hexprs_eq hx
      have := hone j x hget hinv
      simp only [List.length_nil] at hj
      omega
    · obtain ⟨j, hj, -, hget⟩ := exists_index_of_mem (A := before ++ opening :: between) (C := [])
        (by simpa using hexprs_eq) hx
      have := hone j x hget hinv
      simp only [List.length_append, List.length_cons] at hj
      omega
    · obtain ⟨j, -, hj, hget⟩ := exists_index_of_mem (A := []) (C := e :: after)
        (by simpa using hexprs_eq) hx
      have := hother j x hget hinv
      simp only [List.length_nil, List.length_append, List.length_cons] at hj
      omega
    · obtain ⟨ht, stt, hstt, hmem⟩ := hown
      obtain ⟨place, hplace, hstat⟩ := exists_mem_placedExprs (s := t) hmem
      have := (hplaces t stt ht hstt _ hplace).2 o hinv
      exact hts (hstat ▸ (mem_positionsIn hpositions (hget ▸ this)).1)

end Method

end Decompiler
