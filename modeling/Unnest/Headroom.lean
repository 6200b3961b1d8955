namespace Unnest

-- How many calls may still be nested in one another, if their number is limited.
abbrev Headroom := Option Nat

namespace Headroom

def Holds (room : Headroom) (calls : Nat) : Prop :=
  ∀ n ∈ room, calls ≤ n

instance (room : Headroom) (calls : Nat) : Decidable (room.Holds calls) :=
  match room with
  | none => .isTrue nofun
  | some n => decidable_of_iff (calls ≤ n) (by simp [Holds])

-- What is left of the room inside of some calls.
def within (room : Headroom) (calls : Nat) : Headroom :=
  room.map (· - calls)

@[simp] theorem holds_none (calls : Nat) : Holds none calls := nofun

@[simp] theorem holds_some {n calls : Nat} : Holds (some n) calls ↔ calls ≤ n := by
  simp [Holds]

theorem Holds.mono {room : Headroom} {calls fewer : Nat} (h : room.Holds calls)
    (hle : fewer ≤ calls) : room.Holds fewer :=
  fun n hn => Nat.le_trans hle (h n hn)

theorem holds_zero (room : Headroom) : room.Holds 0 :=
  fun _ _ => Nat.zero_le _

theorem holds_max {room : Headroom} {calls others : Nat} :
    room.Holds (max calls others) ↔ room.Holds calls ∧ room.Holds others := by
  simp only [Holds, Nat.max_le, forall_and]

@[simp] theorem within_none (calls : Nat) : within none calls = none := rfl

theorem holds_within {room : Headroom} {calls : Nat} (h : room.Holds calls) {inner : Nat} :
    (room.within calls).Holds inner ↔ room.Holds (calls + inner) := by
  cases room with
  | none => simp
  | some n =>
      have hcalls : calls ≤ n := holds_some.mp h
      simp only [within, Option.map_some, holds_some]
      omega

end Headroom

end Unnest
