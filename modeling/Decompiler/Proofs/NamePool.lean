import Decompiler.NamePool
import Mathlib.Data.List.Nodup

/-!
# Names that are handed out

A name is lengthened only as far as it has to be, and is in use from then on. So whatever is asked
of a pool, and in whatever order, no name is handed out that was in use before.

* `NamePool.IsFirstFree`: the name that a proposal comes to. Lengthening ends there
  (`NamePool.freshen_isFirstFree`).
* `NamePool.mem_used_serve`, `NamePool.mem_used_after`: the names that one request, and a list of
  requests, bring into use.
* `NamePool.nodup_handedOut`: no name is handed out twice.
-/

namespace Decompiler.NamePool

/-! ## Lengthening -/

/-- A proposal followed by `k` times the letter that lengthens it. -/
def lengthened (proposal : String) (k : ℕ) : String := proposal ++ .ofList (List.replicate k 'x')

/-- A name is a proposal lengthened by the least number of letters that gives a name not in use. -/
def IsFirstFree (inUse : String → Prop) (proposal name : String) : Prop :=
  ∃ k, name = lengthened proposal k ∧ ¬ inUse name ∧ ∀ j < k, inUse (lengthened proposal j)

variable {p : NamePool} {name proposal : String}

@[simp] theorem lengthened_zero : lengthened name 0 = name := by
  simp [lengthened]

theorem lengthened_push (k : ℕ) : lengthened (name.push 'x') k = lengthened name (k + 1) := by
  rw [lengthened, lengthened, List.replicate_succ, ← List.singleton_append, String.ofList_append,
    ← String.append_assoc]
  congr 1

/-- Lengthening stops at the first name that is free. -/
theorem freshen_isFirstFree (used : List String) (proposal : String) :
    IsFirstFree (· ∈ used) proposal (freshen used proposal) := by
  induction proposal using freshen.induct used with
  | case1 name hused ih =>
    rw [freshen, if_pos hused]
    obtain ⟨k, hk, hfree, hleast⟩ := ih
    refine ⟨k + 1, hk.trans (lengthened_push k), hfree, fun j hj => ?_⟩
    cases j with
    | zero => rwa [lengthened_zero]
    | succ j => exact lengthened_push j ▸ hleast j (Nat.lt_of_succ_lt_succ hj)
  | case2 name hfree =>
    rw [freshen, if_neg hfree]
    exact ⟨0, lengthened_zero.symm, hfree, nofun⟩

theorem IsFirstFree.not_inUse {inUse : String → Prop} (h : IsFirstFree inUse proposal name) :
    ¬ inUse name := by
  obtain ⟨_, _, hfree, _⟩ := h
  exact hfree

/-! ## One request -/

@[simp] theorem mem_used_add {added : String} :
    name ∈ (p.add added).used ↔ name ∈ p.used ∨ name = added := by
  unfold add
  split
  · next hadded => exact ⟨.inl, fun h => h.elim id fun heq => heq ▸ hadded⟩
  · rw [List.mem_cons, or_comm]

/-- What can be asked of a pool. -/
inductive Request where
  /-- Mark `name` as used. -/
  | add (name : String)
  /-- Hand out a name for a proposal. -/
  | fresh (proposal : String)
  /-- Hand out a name for the variable of an index. -/
  | freshIndex (index : ℕ)
  deriving DecidableEq

/-- The proposal of a request for a name. -/
def Request.proposal? : Request → Option String
  | .add _ => none
  | .fresh proposal => some proposal
  | .freshIndex index => some ("var" ++ toString index)

/-- Serves one request. A request for a name is answered by the name. -/
def serve (p : NamePool) : Request → NamePool × Option String
  | .add name => (p.add name, none)
  | .fresh proposal => (p.fresh proposal).map id some
  | .freshIndex index => (p.freshIndex index).map id some

variable {request : Request}

/-- Whoever asks for a name gets the first free one. -/
theorem serve_isFirstFree (h : request.proposal? = some proposal) :
    ∃ name, (p.serve request).2 = some name ∧ IsFirstFree (· ∈ p.used) proposal name := by
  cases request with
  | add => cases h
  | fresh | freshIndex =>
    cases h
    exact ⟨_, rfl, freshen_isFirstFree p.used _⟩

theorem notMem_used_of_serve (h : (p.serve request).2 = some name) : name ∉ p.used := by
  cases request with
  | add => cases h
  | fresh | freshIndex =>
    cases h
    exact (freshen_isFirstFree p.used _).not_inUse

/-- A request brings the name into use that it adds or is answered with. -/
theorem mem_used_serve : name ∈ (p.serve request).1.used ↔
    name ∈ p.used ∨ request = .add name ∨ (p.serve request).2 = some name := by
  cases request <;>
    simp [serve, fresh, freshIndex, eq_comm (a := name)]

/-! ## Many requests -/

/-- The pool once some requests were served one after the other. -/
def after (p : NamePool) (requests : List Request) : NamePool :=
  requests.foldl (fun p request => (p.serve request).1) p

/-- The names that are handed out for some requests, in order. -/
def handedOut : NamePool → List Request → List String
  | _, [] => []
  | p, request :: rest => (p.serve request).2.toList ++ handedOut (p.serve request).1 rest

/-- The names in use after some requests are those in use before, those added and those handed out.
-/
theorem mem_used_after {requests : List Request} : name ∈ (p.after requests).used ↔
    name ∈ p.used ∨ .add name ∈ requests ∨ name ∈ p.handedOut requests := by
  induction requests generalizing p with
  | nil => simp [after, handedOut]
  | cons request rest ih =>
    change name ∈ ((p.serve request).1.after rest).used ↔ _
    rw [ih, mem_used_serve, handedOut, List.mem_cons, List.mem_append, Option.mem_toList,
      eq_comm (a := Request.add name)]
    tauto

theorem notMem_used_of_handedOut {requests : List Request} (h : name ∈ p.handedOut requests) :
    name ∉ p.used := by
  induction requests generalizing p with
  | nil => cases h
  | cons request rest ih =>
    rcases List.mem_append.1 h with h | h
    · exact notMem_used_of_serve (Option.mem_toList.1 h)
    · exact fun hused => ih h (mem_used_serve.2 (.inl hused))

/-- No name is handed out twice. -/
theorem nodup_handedOut (p : NamePool) (requests : List Request) :
    (p.handedOut requests).Nodup := by
  induction requests generalizing p with
  | nil => exact .nil
  | cons request rest ih =>
    refine List.nodup_append'.2 ⟨?_, ih _, fun name hname hrest => ?_⟩
    · cases (p.serve request).2 <;> simp
    · exact notMem_used_of_handedOut hrest
        (mem_used_serve.2 (.inr (.inr (Option.mem_toList.1 hname))))

end Decompiler.NamePool
