import Mathlib

/-!
# Transactions

A transaction has an ID and a start timestamp (`transaction/transaction.h`). IDs start at
`START_TRANSACTION_ID`, timestamps are below it, so that one number can stand for both: a version of
an uncommitted transaction carries the ID, a committed one the commit timestamp.
-/

namespace CycleJoin

/-- `Transaction::START_TRANSACTION_ID`. -/
def startTransactionID : Nat := 2 ^ 63

/-- What the storage reads of a transaction. -/
structure Transaction where
  id : Nat
  startTS : Nat
  deriving DecidableEq, Repr

end CycleJoin
