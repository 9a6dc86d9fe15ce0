import Mathlib.Algebra.Ring.Nat
import Mathlib.Data.List.Basic

/-!
# Round robin over a shrinking queue

A server works on a queue in turns. In a turn it takes a number of entries
from the front, drops some of them, and puts the others, perhaps changed, at
the back. An entry moves forward by what each turn takes, so that it is
served once the turns have taken as many entries as stand before it and
itself, unless the server stops at the queue that is left before.
-/

namespace RoundRobin

variable {α : Type*} (keep : α → Option α) (stop : List α → Bool)

/-- A turn that takes `n` entries. -/
def turn (n : Nat) (q : List α) : List α := q.drop n ++ (q.take n).filterMap keep

/-- The entries served in some turns, in order. -/
def served : List Nat → List α → List α
  | [], _ => []
  | n :: ns, q => if stop q then [] else q.take n ++ served ns (turn keep n q)

variable {keep stop} {q : List α}

theorem turn_zero : turn keep 0 q = q := by
  rw [turn, List.drop_zero, List.take_zero, List.filterMap_nil, List.append_nil]

/-- Within the first round two turns are one. -/
theorem turn_turn {t n : Nat} (h : t + n ≤ q.length) :
    turn keep n (turn keep t q) = turn keep (t + n) q := by
  have hn : n ≤ (q.drop t).length := by
    rw [List.length_drop]
    omega
  rw [turn, turn, turn, List.drop_append_of_le_length hn, List.take_append_of_le_length hn,
    List.drop_drop, List.append_assoc, ← List.filterMap_append, ← List.take_add]

theorem served_of_stop (ns : List Nat) (h : stop q = true) : served keep stop ns q = [] := by
  cases ns with
  | nil => rfl
  | cons n ns => rw [served, if_pos h]

/-- After `t` entries of the first round, the turns go through the others. -/
theorem mem_served {t : Nat} {ns : List Nat} (hlive : ∀ t < q.length, stop (turn keep t q) = false)
    (hpos : ∀ n ∈ ns, 0 < n) (hlen : q.length ≤ t + ns.length) {x : α} (hx : x ∈ q.drop t) :
    x ∈ served keep stop ns (turn keep t q) := by
  have hlt : ∀ {t}, x ∈ q.drop t → t < q.length := fun hx => by
    have := List.length_pos_of_mem hx
    rw [List.length_drop] at this
    omega
  induction ns generalizing t with
  | nil => exact absurd (hlt hx) (Nat.not_lt.mpr hlen)
  | cons n ns ih =>
    have hn := hpos n List.mem_cons_self
    rw [served, hlive t (hlt hx), if_neg Bool.false_ne_true]
    rw [← List.take_append_drop n (q.drop t), List.drop_drop] at hx
    rcases List.mem_append.mp hx with hx | hx
    · refine List.mem_append_left _ ?_
      rw [turn, List.take_append]
      exact List.mem_append_left _ hx
    · refine List.mem_append_right _ ?_
      rw [turn_turn (Nat.le_of_lt (hlt hx))]
      refine ih (fun k hk => hpos k (List.mem_cons_of_mem n hk)) ?_ hx
      rw [List.length_cons] at hlen
      omega

/-- Turns that come to a queue to stop at leave out what has not been served before. -/
theorem served_subset {t : Nat} (hstop : stop (turn keep t q) = true) :
    ∃ ns, (∀ n ∈ ns, 0 < n) ∧ q.length ≤ ns.length ∧ (∀ n ∈ ns.head?, n = t ∨ n = 1 ∧ t = 0)
      ∧ ∀ x ∈ served keep stop ns q, x ∈ q.take t := by
  have hones : ∀ n ∈ List.replicate q.length 1, 0 < n := fun n hn => by
    rw [List.eq_of_mem_replicate hn]
    exact Nat.one_pos
  cases t with
  | zero =>
    rw [turn_zero] at hstop
    refine ⟨List.replicate q.length 1, hones, by rw [List.length_replicate], fun n hn => ?_, ?_⟩
    · exact .inr ⟨List.eq_of_mem_replicate (List.mem_of_mem_head? hn), rfl⟩
    · rw [served_of_stop _ hstop]
      exact nofun
  | succ t =>
    refine ⟨(t + 1) :: List.replicate q.length 1, List.forall_mem_cons.mpr ⟨Nat.succ_pos t, hones⟩,
      ?_, fun n hn => ?_, fun x hx => ?_⟩
    · rw [List.length_cons, List.length_replicate]
      exact Nat.le_succ _
    · exact .inl (Option.some.inj hn).symm
    · rw [served] at hx
      split at hx
      · cases hx
      · rwa [served_of_stop _ hstop, List.append_nil] at hx

end RoundRobin
