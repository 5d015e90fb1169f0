/-!
# Powers of two and of ten

* `twoTo`, `tenTo`
* `twoTo_pos`, `tenTo_pos`: they are positive
* `twoTo_succ`: doubling
-/

namespace Recurrence

def twoTo (n : Nat) : Nat := Nat.pow 2 n

def tenTo (n : Nat) : Nat := Nat.pow 10 n

theorem twoTo_succ (n : Nat) : twoTo (n + 1) = 2 * twoTo n := Nat.mul_comm _ _

theorem twoTo_pos (n : Nat) : 0 < twoTo n := Nat.two_pow_pos n

theorem tenTo_pos (n : Nat) : 0 < tenTo n := Nat.pow_pos (Nat.succ_pos 9)

end Recurrence
