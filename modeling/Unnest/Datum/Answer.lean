import Unnest.Failure

namespace Unnest

def Answer.get : Answer α → Except Failure α
  | given a => .ok a
  | ambiguous isEmpty => .error (.noSingleTruth isEmpty)
  | refused => .error .mismatch

namespace Datum

-- Whether a datum counts as true, as far as it says so.
def truth : Datum → Except Failure Bool
  | foreign (.custom c) => c.truth.get
  | d => .ok d.isTrue

theorem isTrue_of_truth {d : Datum} {b : Bool} (h : d.truth = .ok b) : d.isTrue = b := by
  unfold truth at h
  split at h
  · next c =>
    cases htruth : c.truth with
    | given a =>
        rw [htruth] at h
        obtain rfl := Except.ok.inj h
        simp [isTrue, Foreign.isTrue, htruth]
    | ambiguous _ | refused => rw [htruth] at h; cases h
  · exact Except.ok.inj h

end Datum

end Unnest
