import Unnest.Proofs.Profiler.Session

namespace Unnest.Profiler

theorem start_frame (p : Profiler) (operation : Text) (rows : Int) :
    (p.start operation rows).2.history = p.history ∧
      (p.start operation rows).2.session.map Session.operation = some operation := by
  unfold start
  rw [readClock_eq]
  dsimp only [readMemory]
  split
  · next hread => obtain ⟨-, rfl⟩ := Prod.mk.inj hread; exact ⟨rfl, rfl⟩
  · next hread => obtain ⟨-, rfl⟩ := Prod.mk.inj hread; exact ⟨rfl, rfl⟩

theorem record_frame (p : Profiler) (rows : Int) :
    (p.record rows).2.history = p.history ∧ (p.record rows).2.session = p.session := by
  unfold record
  dsimp only [readMemory]
  split
  · next hread => obtain ⟨-, rfl⟩ := Prod.mk.inj hread; exact ⟨rfl, rfl⟩
  · next hread => obtain ⟨-, rfl⟩ := Prod.mk.inj hread; exact ⟨rfl, rfl⟩

-- A session that ends leaves an entry, and that has its name.
theorem stop_frame (p : Profiler) : p.stop.2.history = p.history ∨
    ∃ m : Metrics, p.stop.2.history = p.history ++ [m] ∧
      p.session.map Session.operation = some m.operation := by
  unfold stop
  split
  · exact .inl rfl
  · next session hsession =>
    split
    · exact .inl rfl
    · rw [readClock_eq]
      dsimp only [readMemory]
      split
      · next hread => obtain ⟨-, rfl⟩ := Prod.mk.inj hread; exact .inl rfl
      · next hread =>
        obtain ⟨-, rfl⟩ := Prod.mk.inj hread
        rw [readProcessor_eq]
        dsimp only
        split
        · exact .inl rfl
        · exact .inr ⟨_, rfl, congrArg _ hsession⟩

-- Entries are named after operations that were measured.
def Named (names : Text → Prop) (p : Profiler) : Prop :=
  ∀ m ∈ p.history, names m.operation

theorem Named.measure {names : Text → Prop} {p : Profiler} (h : p.Named names) {operation : Text}
    (hoperation : names operation) (rows : Int) {body : Profiler → Traced α × Profiler}
    (hbody : ∀ q, (body q).2.history = q.history ∧ (body q).2.session = q.session) :
    (p.measure operation rows body).2.Named names := by
  obtain ⟨hstarted, hsession⟩ := start_frame p operation rows
  unfold Profiler.measure
  dsimp only
  split
  · intro m hm
    exact h m (hstarted ▸ hm)
  · obtain ⟨hhistory, hopen⟩ := hbody (p.start operation rows).2
    rcases stop_frame (body (p.start operation rows).2).2 with hstopped | ⟨n, hstopped, hnamed⟩
    · intro m hm
      dsimp only at hm
      rw [hstopped, hhistory, hstarted] at hm
      exact h m hm
    · rw [hopen, hsession] at hnamed
      intro m hm
      dsimp only at hm
      rw [hstopped, hhistory, hstarted] at hm
      rcases List.mem_append.mp hm with hm | hm
      · exact h m hm
      · obtain rfl := List.mem_singleton.mp hm
        exact Option.some.inj hnamed ▸ hoperation

end Unnest.Profiler
