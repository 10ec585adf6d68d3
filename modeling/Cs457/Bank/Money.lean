import Cs457.Bank.Cluster
import Cs457.Lib.Ledger

/-!
# Bank — the money in the system

The total of a cluster: every branch's `d_money` and every Transfer that has been sent and
not yet handled, on whichever of the two possible connections between two branches it
travels.
-/

namespace Cs457.Bank

open Branch

/-- The amounts of the Transfers in a queue. -/
def transfers : List BranchMessage → ℕ
  | [] => 0
  | .transfer money :: l => money.toNat + transfers l
  | _ :: l => transfers l

theorem transfers_append (l l' : List BranchMessage) :
    transfers (l ++ l') = transfers l + transfers l' := by
  induction l with
  | nil => simp [transfers]
  | cons msg l ih =>
    cases msg with
    | transfer a => simp only [List.cons_append, transfers, ih, Nat.add_assoc]
    | _ => simpa only [List.cons_append, transfers] using ih

theorem transfers_eq_zero {l : List BranchMessage}
    (h : ∀ msg ∈ l, ∀ a, msg ≠ .transfer a) : transfers l = 0 := by
  induction l with
  | nil => rfl
  | cons msg l ih =>
    have htail := ih fun m hm => h m (List.mem_cons_of_mem msg hm)
    cases msg with
    | transfer a => exact absurd rfl (h _ List.mem_cons_self a)
    | _ => simpa only [transfers] using htail

namespace Cluster

/-- What is on its way from `p` to `q`: on the connection `p` opened and on the one `q`
opened. -/
def inFlight (c : Cluster) (p q : Name) : ℕ :=
  transfers (c.queue ⟨.peer p q, .acceptor⟩) + transfers (c.queue ⟨.peer q p, .opener⟩)

/-- All the money of the branches `N`. -/
def total (c : Cluster) (N : Finset Name) : ℕ :=
  ledger N (fun p => (c.branch p).money.toNat) c.inFlight

end Cluster

end Cs457.Bank
