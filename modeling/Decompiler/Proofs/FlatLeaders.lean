import Decompiler.Proofs.Leaders

/-!
# Leaders written down one by one

Links are a short way to say of every variable what its leader is. The long way is a table that has
the leader of each variable: a merge goes through all of it, and finding a leader changes nothing.
Links answer like the table, however merges and finds follow each other.

* `Leaders.Flat`: the table.
* `Leaders.Mirrors`: links and a table that say the same. One request keeps this
  (`Leaders.Mirrors.serve`), and so does every list of requests (`Leaders.Mirrors.serveAll`).
* `Leaders.serveAll_flat`: what follows for links that start empty.
-/

namespace Decompiler.Leaders

/-- What can be asked of a record of merged variables. -/
inductive Request where
  /-- Let `source` and all that has its leader live under the leader of `target`. -/
  | merge (source target : Local)
  /-- Which variable does `v` live under? -/
  | find (v : Local)

/-- Serves one request. Finding a leader has an answer. -/
def serve (t : Leaders) : Request → Checked (Leaders × Option Local)
  | .merge source target => do return (← t.merge source target, none)
  | .find v => do
    let (t, leader) ← t.find v
    return (t, some leader)

/-- Serves requests one after the other. -/
def serveAll : Leaders → List Request → Checked (Leaders × List (Option Local))
  | t, [] => return (t, [])
  | t, request :: rest => do
    let (t, answer) ← t.serve request
    let (t, answers) ← t.serveAll rest
    return (t, answer :: answers)

/-- The leaders of all variables, one by one. -/
structure Flat where
  /-- The leader of each variable. -/
  leader : Local → Local
  /-- How many merges were of variables with different leaders. -/
  joined : Nat

namespace Flat

/-- Every variable is its own leader. -/
def start : Flat := ⟨id, 0⟩

/-- Serves one request. A merge gives the leader of `target` to every variable that has the leader
of `source`. -/
def serve (f : Flat) : Request → Flat × Option Local
  | .merge source target =>
    (⟨fun v => if f.leader v = f.leader source then f.leader target else f.leader v,
      if f.leader source = f.leader target then f.joined else f.joined + 1⟩, none)
  | .find v => (f, some (f.leader v))

/-- Serves requests one after the other. -/
def serveAll : Flat → List Request → Flat × List (Option Local)
  | f, [] => (f, [])
  | f, request :: rest =>
    let (f, answer) := f.serve request
    let (f, answers) := f.serveAll rest
    (f, answer :: answers)

end Flat

/-- Links say the same as a table, and there is one for each merge that joined two leaders. -/
structure Mirrors (t : Leaders) (f : Flat) : Prop where
  /-- All variables have the leaders that the table has for them. -/
  leader : ∀ v, t.leader v = .ok (f.leader v)
  /-- The links are as many as the merges that joined two leaders. -/
  size : t.size = f.joined

variable {t : Leaders} {f : Flat}

theorem mirrors_start : empty.Mirrors .start := ⟨fun _ => rfl, rfl⟩

theorem Mirrors.isUnique_iff (h : t.Mirrors f) (v : Local) :
    t.isUnique v = true ↔ f.leader v = v := by
  rw [Leaders.isUnique_iff]
  constructor
  · intro hv
    have hleader := h.leader v
    rw [Leaders.leader, follow_unique hv] at hleader
    exact (Except.ok.inj hleader).symm
  · intro hv
    have hunique := unique_of_follow (h.leader v)
    rwa [hv] at hunique

theorem Mirrors.find (h : t.Mirrors f) (v : Local) :
    Returns (t.find v) fun r => r.1.Mirrors f ∧ r.2 = f.leader v :=
  (find_returns (h.leader v)).mono fun _ ⟨hs, hv⟩ =>
    ⟨⟨fun w => hs.leader (h.leader w), hs.1.trans h.size⟩, hv⟩

/-- Requests of both kinds are served alike. -/
theorem Mirrors.serve (h : t.Mirrors f) (request : Request) : Returns (t.serve request) fun r =>
    r.1.Mirrors (f.serve request).1 ∧ r.2 = (f.serve request).2 := by
  cases request with
  | merge source target =>
    obtain ⟨t', ht', hsize, hleader⟩ := merge_returns (h.leader source) (h.leader target)
    refine ⟨(t', none), by simp [Leaders.serve, ht'], ⟨fun v => hleader v _ (h.leader v), ?_⟩, rfl⟩
    rw [hsize, h.size]
    rfl
  | find v =>
    obtain ⟨⟨t', leader⟩, hfind, hmirrors, rfl⟩ := h.find v
    exact ⟨(t', some (f.leader v)), by simp [Leaders.serve, hfind], hmirrors, rfl⟩

theorem Mirrors.serveAll (h : t.Mirrors f) (requests : List Request) :
    Returns (t.serveAll requests) fun r =>
      r.1.Mirrors (f.serveAll requests).1 ∧ r.2 = (f.serveAll requests).2 := by
  induction requests generalizing t f with
  | nil => exact ⟨_, rfl, h, rfl⟩
  | cons request rest ih =>
    obtain ⟨⟨t', answer⟩, hserve, h', hanswer⟩ := h.serve request
    obtain ⟨⟨t'', answers⟩, hrest, h'', hanswers⟩ := ih h'
    refine ⟨(t'', answer :: answers), by simp [Leaders.serveAll, hserve, hrest], h'', ?_⟩
    exact congrArg₂ List.cons hanswer hanswers

/-- **Links answer like a flat table.** Starting from no links, every list of merges and finds is
served without a fault, with the answers that the table gives. Afterwards there are as many links as
merges that joined two different leaders, the variables without a link are those that are their own
leaders, and every variable is found to have its leader in the table, whatever was found just
before. -/
theorem serveAll_flat (requests : List Request) :
    Returns (empty.serveAll requests) fun r =>
      r.2 = (Flat.start.serveAll requests).2 ∧
      r.1.size = (Flat.start.serveAll requests).1.joined ∧
      (∀ v, r.1.isUnique v = true ↔ (Flat.start.serveAll requests).1.leader v = v) ∧
      ∀ v, Returns (r.1.find v) fun found =>
        found.2 = (Flat.start.serveAll requests).1.leader v ∧
        ∀ w, Returns (found.1.find w) fun again =>
          again.2 = (Flat.start.serveAll requests).1.leader w := by
  refine (mirrors_start.serveAll requests).mono fun r ⟨hmirrors, hanswers⟩ =>
    ⟨hanswers, hmirrors.size, hmirrors.isUnique_iff, fun v => ?_⟩
  refine (hmirrors.find v).mono fun found ⟨hfound, hv⟩ => ⟨hv, fun w => ?_⟩
  exact (hfound.find w).mono fun _ hw => hw.2

end Decompiler.Leaders
