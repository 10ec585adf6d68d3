import Cs457.Bank.Branch
import Cs457.Lib.Transition

/-!
# Bank — the loop of `do_send_money`

One pass of the loop draws a number and ends, or leaves `d_money` alone and goes round again.
Transfers from other branches may be credited before any pass, so that `curr_money` may be stale
in all of them; what a pass ends with is right for every stale value, because the exchange only
succeeds when the value is the balance.

* **`sendLoop_cons`** — the loop is its passes.
* **`pass_ended`** — what the last pass does.
* **`transfer_never_overdraws`** — what the timer handler does to the balance and sends.
-/

namespace Cs457.Bank.Branch

open Transition

/-- How a pass leaves the loop. -/
inductive Pass where
  | again (money curr : UInt64)
  | ended (money toSend : UInt64)
  deriving DecidableEq, Repr

/-- One pass, with `d_money` and `curr_money` before it. -/
def pass (a : Attempt) (money curr : UInt64) : Pass :=
  let money := money + a.credit
  let endBal := curr - a.draw
  -- `if (to_send == 0) break`
  if a.draw = 0 then .ended money 0
  -- the subtraction has wrapped: `continue`
  else if endBal > curr then .again money curr
  -- `compare_exchange_weak`, which stores the current value in `curr_money` when it fails
  else if money = curr ∧ a.spurious = false then .ended endBal a.draw
  else .again money money

/-- The state after a pass that goes round again. -/
def retry (s : UInt64 × UInt64) (a : Attempt) : Option (UInt64 × UInt64) :=
  match pass a s.1 s.2 with
  | .again money curr => some (money, curr)
  | .ended _ _ => none

/-- `d_money` with the credits of some passes. -/
def withCredits (money : UInt64) (as : List Attempt) : UInt64 :=
  as.foldl (fun money a => money + a.credit) money

/-- The loop is one pass and, if the exchange fails, the loop over the remaining attempts. -/
theorem sendLoop_cons (a : Attempt) (as : List Attempt) (money curr : UInt64) :
    sendLoop (a :: as) money curr = match pass a money curr with
      | .again money curr => sendLoop as money curr
      | .ended money toSend => some (money, toSend) := by
  simp only [sendLoop, pass]
  split
  · rfl
  · split
    · rfl
    · split <;> rfl

/-! ## One pass -/

/-- A pass that goes round again leaves `d_money` alone. -/
theorem pass_again {a : Attempt} {money curr money' curr' : UInt64}
    (h : pass a money curr = .again money' curr') : money' = money + a.credit := by
  simp only [pass] at h
  split at h
  · cases h
  · split at h
    · cases h
      rfl
    · split at h
      · cases h
      · cases h
        rfl

/-- **What the last pass does.** It draws nothing, or lowers the balance by what it has drawn,
which the balance covers. -/
theorem pass_ended {a : Attempt} {money curr money' toSend : UInt64}
    (h : pass a money curr = .ended money' toSend) :
    toSend = a.draw ∧ ((a.draw = 0 ∧ money' = money + a.credit) ∨
      (0 < a.draw ∧ a.draw ≤ money + a.credit ∧ money' = money + a.credit - a.draw)) := by
  simp only [pass] at h
  split at h
  · next hdraw =>
    cases h
    exact ⟨hdraw.symm, Or.inl ⟨hdraw, rfl⟩⟩
  · next hdraw =>
    split at h
    · cases h
    · next hborrow =>
      split at h
      · next hswap =>
        cases h
        -- without a wrap the draw is covered by `curr_money`, which is the balance
        have hle := le_of_sub_le (UInt64.not_lt.mp hborrow)
        rw [hswap.1]
        exact ⟨rfl, Or.inr ⟨UInt64.pos_iff_ne_zero.mpr hdraw, hle, rfl⟩⟩
      · cases h

/-! ## The whole loop -/

/-- After failed passes the money is what it was with the credits that have come in. -/
theorem exec_retry {as : List Attempt} {money curr money' curr' : UInt64}
    (h : exec retry (money, curr) as = some (money', curr')) : money' = withCredits money as := by
  induction as generalizing money curr with
  | nil =>
    cases h
    rfl
  | cons a as ih =>
    obtain ⟨⟨money₁, curr₁⟩, hretry, hrest⟩ := exec_cons.mp h
    unfold retry at hretry
    split at hretry
    · next hpass =>
      cases hretry
      rw [ih hrest, pass_again hpass]
      rfl
    · cases hretry

/-- The loop ends with a pass that ends it. -/
theorem sendLoop_eq_some {attempts : List Attempt} {money curr money' toSend : UInt64}
    (h : sendLoop attempts money curr = some (money', toSend)) :
    ∃ before last after found stale, attempts = before ++ last :: after ∧
      exec retry (money, curr) before = some (found, stale) ∧
      pass last found stale = .ended money' toSend := by
  -- induction on the passes: the first one ends the loop or is put before the others
  induction attempts generalizing money curr with
  | nil => cases h
  | cons a as ih =>
    rw [sendLoop_cons] at h
    split at h
    · next money₁ curr₁ hpass =>
      obtain ⟨before, last, after, found, stale, rfl, hexec, hlast⟩ := ih h
      refine ⟨a :: before, last, after, found, stale, rfl, ?_, hlast⟩
      exact exec_cons.mpr ⟨(money₁, curr₁), by rw [retry, hpass], hexec⟩
    · next hpass =>
      cases h
      exact ⟨[], a, as, money, curr, rfl, rfl, hpass⟩

/-- **Sending money never overdraws.** Up to the last pass `d_money` is changed by the credits only.
The last pass leaves it alone and nothing is sent, or lowers it by an amount that it covers, which
is sent in one Transfer. -/
theorem transfer_never_overdraws {b : Branch} {i : ℕ} {attempts : List Attempt}
    {r : Branch × List Effect} (h : b.doSendMoney i attempts = some r) :
    ∃ before last after e balance, attempts = before ++ last :: after ∧
      b.channels.entries[i]? = some e ∧
      (∀ k ≤ before.length, ∃ curr, exec retry (b.money, b.money) (before.take k)
        = some (withCredits b.money (before.take k), curr)) ∧
      balance = withCredits b.money before + last.credit ∧
      ((last.draw = 0 ∧ r = ({ b with money := balance }, [])) ∨
        (0 < last.draw ∧ last.draw ≤ balance ∧
          r = ({ b with money := balance - last.draw }, [.send e.2 (.transfer last.draw)]))) := by
  unfold doSendMoney at h
  simp only [Option.bind_eq_bind, Option.bind_eq_some_iff] at h
  obtain ⟨e, he, ⟨money', toSend⟩, hloop, hr⟩ := h
  obtain ⟨before, last, after, found, stale, hattempts, hexec, hlast⟩ := sendLoop_eq_some hloop
  have hfound := exec_retry hexec
  refine ⟨before, last, after, e, _, hattempts, he, fun k _ => ?_, rfl, ?_⟩
  · -- the loop passes through all shorter sequences of passes
    rw [← List.take_append_drop k before] at hexec
    obtain ⟨⟨money₁, curr₁⟩, hfirst, -⟩ := exec_append.mp hexec
    exact ⟨curr₁, by rw [hfirst, exec_retry hfirst]⟩
  · cases hr
    obtain ⟨rfl, hcases⟩ := pass_ended hlast
    rw [hfound] at hcases
    rcases hcases with ⟨hzero, hmoney⟩ | ⟨hpos, hle, hmoney⟩
    · refine Or.inl ⟨hzero, ?_⟩
      rw [hmoney, hzero]
      rfl
    · refine Or.inr ⟨hpos, hle, ?_⟩
      rw [hmoney, if_pos hpos]

/-- A credit comes between the load and the exchange: the first pass fails. -/
def stalePasses : List Attempt := [⟨50, 3, false⟩, ⟨0, 5, false⟩]

/-- A branch with one channel. -/
def oneChannel : Branch :=
  { name := "a", money := 100, channels := UnorderedMap.emplace ∅ "b" ⟨.peer "a" "b", .opener⟩ }

/-- What the handler leaves and sends. -/
def afterStale : Branch × List Effect :=
  ({ oneChannel with money := 145 }, [.send ⟨.peer "a" "b", .opener⟩ (.transfer 5)])

/-- A credit comes in between the load and the exchange, so the first pass fails and the second sees
the new balance. -/
theorem transfer_never_overdraws_stale :
    ∃ before last after e balance, stalePasses = before ++ last :: after ∧
      oneChannel.channels.entries[0]? = some e ∧
      (∀ k ≤ before.length, ∃ curr, exec retry (oneChannel.money, oneChannel.money) (before.take k)
        = some (withCredits oneChannel.money (before.take k), curr)) ∧
      balance = withCredits oneChannel.money before + last.credit ∧
      ((last.draw = 0 ∧ afterStale = ({ oneChannel with money := balance }, [])) ∨
        (0 < last.draw ∧ last.draw ≤ balance ∧ afterStale = ({ oneChannel with
          money := balance - last.draw }, [.send e.2 (.transfer last.draw)]))) := by
  have hhandler : oneChannel.doSendMoney 0 stalePasses = some afterStale := rfl
  exact transfer_never_overdraws hhandler

end Cs457.Bank.Branch
