import Lachesis.Dag

/-!
`utils/datasemaphore`. The fields of a metric are a `uint32` and a `uint64`, whose sums
wrap around. `Acquire` waits in a loop of attempts, so it is an attempt or a failure.
-/

namespace Lachesis.Datasemaphore

open Dag

structure DataSemaphore where
  processing : Metric
  maxProcessing : Metric
  returns : List Metric
  deriving DecidableEq

namespace DataSemaphore

def new (maxProcessing : Metric) : DataSemaphore := ⟨⟨0, 0⟩, maxProcessing, []⟩

def tryAcquire (s : DataSemaphore) (metric : Metric) : Option DataSemaphore :=
  let tmp : Metric :=
    ⟨(s.processing.num + metric.num) % 2 ^ 32, (s.processing.size + metric.size) % 2 ^ 64⟩
  if s.maxProcessing.num < tmp.num ∨ s.maxProcessing.size < tmp.size then none
  else some { s with processing := tmp }

def release (s : DataSemaphore) (weight : Metric) : DataSemaphore :=
  let processing : Metric :=
    if s.processing.num < weight.num ∨ s.processing.size < weight.size then ⟨0, 0⟩
    else ⟨s.processing.num - weight.num, s.processing.size - weight.size⟩
  { s with processing := processing, returns := s.returns ++ [weight] }

def terminate (s : DataSemaphore) : DataSemaphore := { s with maxProcessing := ⟨0, 0⟩ }

def available (s : DataSemaphore) : Metric :=
  if s.maxProcessing = ⟨0, 0⟩ then ⟨0, 0⟩
  else ⟨s.maxProcessing.num - s.processing.num, s.maxProcessing.size - s.processing.size⟩

end DataSemaphore

end Lachesis.Datasemaphore
