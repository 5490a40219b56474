import ZephyrRtos.Timeout.BucketLaws
import ZephyrRtos.Timeout.DeltaList
import ZephyrRtos.Timeout.MinHeap
import ZephyrRtos.Timeout.SkipListLaws
import ZephyrRtos.Timeout.WheelRuns

namespace ZephyrRtos.Timeout

open List Function Lib

variable {τ : Type} [DecidableEq τ] {cfg : Config}

/-- Removing `t` makes it inactive and leaves every other timeout pending, as far away
as it was. -/
def RemoveFrames (Q : Queue τ) (s : Q.State) (c : ℕ) (t : τ) : Prop :=
  Q.isInactive (Q.remove s c t).1 t = true ∧
    ∀ u, u ≠ t → Q.isInactive s u = false →
      Q.isInactive (Q.remove s c t).1 u = false ∧
        Q.remainder (Q.remove s c t).1 c u = Q.remainder s c u

namespace DeltaList

theorem reaches_nodup (h : Reaches (system (backend τ) cfg) ok es k) : k.queue.list.Nodup := by
  refine reaches_queue (I := fun s : State τ => s.list.Nodup) .nil ?_ ?_ ?_ ?_ h
  · rintro s - t d - - hn hin ⟨⟩
    have ht : t ∉ s.list := by simpa using hin
    exact (deltaInsert_perm t s.list s.dticks d).nodup_iff.2 (nodup_cons.2 ⟨ht, hn⟩)
  · exact fun hn _ => hn.erase _
  · intro s c dt hn
    simp only [zTimeoutQAdvance]
    split <;> exact hn
  intro s c t s' hn hpop
  simp only [zTimeoutQPopDue] at hpop
  split at hpop
  · simp at hpop
  · split at hpop
    · simp at hpop
    · cases hpop
      exact hn.erase _

theorem removeFrames (hn : s.list.Nodup) (c : ℕ) (t : τ) : RemoveFrames (queue τ) s c t := by
  refine ⟨decide_eq_true hn.not_mem_erase, fun u hu hin => ?_⟩
  have hmem : u ∈ s.list := by simpa using hin
  exact ⟨decide_eq_false (not_not.2 ((mem_erase_of_ne hu).2 hmem)), deltaSum_remove hn hmem hu⟩

end DeltaList

namespace Bucket

variable {W : Window}

/-- A timeout's `dticks` says which list it is on. -/
structure Filed (s : State W τ) : Prop where
  bucket : ∀ i, ∀ t ∈ s.bucket i, i < W.lists ∧ s.dticks t = i
  overflow : ∀ t ∈ s.overflow, W.lists ≤ uint64 (s.dticks t)
  bucket_nodup : ∀ i, (s.bucket i).Nodup
  overflow_nodup : s.overflow.Nodup

section Filed

variable {s : State W τ} {t : τ}

theorem Filed.uint64_index (h : Filed s) (ht : t ∈ s.bucket i) : uint64 (s.dticks t) = i := by
  obtain ⟨hi, hd⟩ := h.bucket i t ht
  have := W.lists_le
  have := uint64_eq (x := s.dticks t)
  omega

theorem Filed.inactive_iff (h : Filed s) :
    (queue W τ).isInactive s t = true ↔ t ∉ s.overflow ∧ ∀ i, t ∉ s.bucket i := by
  simp only [decide_eq_true_eq]
  exact and_congr_right fun _ => ⟨fun hall i hi => hall i (h.bucket i t hi).1 hi,
    fun hall i _ => hall i⟩

theorem Filed.appendBucket (h : Filed s) (ho : t ∉ s.overflow) (hb : ∀ i, t ∉ s.bucket i)
    (hi : i < W.lists) : Filed (appendBucket s t i) := by
  have hother : ∀ u, u ≠ t → update s.dticks t (i : ℤ) u = s.dticks u :=
    fun u hu => update_of_ne hu _ _
  refine ⟨fun j u hu => ?_, fun u hu => ?_, fun j => ?_, h.overflow_nodup⟩
  · simp only [Bucket.appendBucket] at hu ⊢
    by_cases hut : u = t
    · subst hut
      have hj : j = i := by
        by_contra hj
        rw [update_of_ne hj] at hu
        exact hb j hu
      simp [hj, hi]
    rw [hother u hut]
    refine h.bucket j u ?_
    by_cases hj : j = i
    · subst hj
      simpa [hut] using hu
    · rwa [update_of_ne hj] at hu
  · simp only [Bucket.appendBucket] at hu ⊢
    rw [hother u fun he => ho (he ▸ hu)]
    exact h.overflow u hu
  · simp only [Bucket.appendBucket]
    by_cases hj : j = i
    · subst hj
      simp only [update_self]
      exact (perm_append_singleton _ _).nodup_iff.2
        (nodup_cons.2 ⟨hb j, h.bucket_nodup j⟩)
    · rw [update_of_ne hj]
      exact h.bucket_nodup j

theorem overflowInsert_perm (key : τ → ℕ) (t : τ) (expiry : ℕ) (l : List τ) :
    (overflowInsert key t expiry l).Perm (t :: l) := by
  induction l with
  | nil => rfl
  | cons u us ih =>
    simp only [overflowInsert]
    split
    · rfl
    · exact (ih.cons u).trans (.swap _ _ _)

theorem Filed.insert (h : Filed s) (hin : (queue W τ).isInactive s t = true) (c : ℕ) (d : ℤ) :
    Filed (zTimeoutQInsert s c t d).1 := by
  obtain ⟨ho, hb⟩ := h.inactive_iff.1 hin
  simp only [zTimeoutQInsert]
  split
  · exact h.appendBucket ho hb (by rw [W.offset_eq]; exact Nat.mod_lt _ W.lists_pos)
  · have hperm := overflowInsert_perm (fun u => uint64 (s.dticks u)) t (uint64 (c + d)) s.overflow
    refine ⟨fun i u hu => ?_, fun u hu => ?_, h.bucket_nodup,
      hperm.nodup_iff.2 (nodup_cons.2 ⟨ho, h.overflow_nodup⟩)⟩
    · have hut : u ≠ t := by
        rintro rfl
        exact hb i hu
      simpa [hut] using h.bucket i u hu
    by_cases hut : u = t
    · subst hut
      have := uint64_eq (x := uint64 (c + d)) (by omega)
        (by have := uint64_lt (c + d); omega)
      simp only [update_self, uint64_int64]
      omega
    · have hmem := (mem_cons.1 (hperm.mem_iff.1 hu)).resolve_left hut
      simpa [hut] using h.overflow u hmem

theorem Filed.takeBucket (h : Filed s) (hl : l.Sublist (s.bucket i)) :
    Filed (takeBucket s i l) := by
  have hsub : ∀ j, (update s.bucket i l j).Sublist (s.bucket j) := by
    intro j
    by_cases hj : j = i
    · subst hj
      simpa using hl
    · rw [update_of_ne hj]
  exact ⟨fun j u hu => h.bucket j u ((hsub j).subset hu), h.overflow,
    fun j => (h.bucket_nodup j).sublist (hsub j), h.overflow_nodup⟩

theorem Filed.remove (h : Filed s) (c : ℕ) (t : τ) : Filed (zTimeoutQRemove s c t).1 := by
  simp only [zTimeoutQRemove]
  split
  · exact h.takeBucket erase_sublist
  · exact ⟨h.bucket, fun u hu => h.overflow u (mem_of_mem_erase hu), h.bucket_nodup,
      h.overflow_nodup.erase t⟩

theorem Filed.migrate (h : Filed { s with overflow := l }) : Filed (migrate l s) := by
  induction l generalizing s with
  | nil => exact h
  | cons t ts ih =>
    simp only [Bucket.migrate]
    split
    · refine ih ?_
      obtain ⟨ht, hts⟩ := nodup_cons.1 h.overflow_nodup
      have hrest : Filed { s with overflow := ts } :=
        ⟨h.bucket, fun u hu => h.overflow u (mem_cons_of_mem _ hu), h.bucket_nodup, hts⟩
      refine hrest.appendBucket ht (fun i hi => ?_)
        (by rw [W.offset_eq]; exact Nat.mod_lt _ W.lists_pos)
      have h1 := h.uint64_index hi
      have h2 := h.overflow t mem_cons_self
      have h3 := (h.bucket i t hi).1
      omega
    · exact h

end Filed

theorem reaches_filed (h : Reaches (system (backend W τ) cfg) ok es k) : Filed k.queue := by
  refine reaches_queue ?_ ?_ ?_ ?_ ?_ h
  · exact ⟨by simp [timeoutBucketInit], by simp [timeoutBucketInit], fun _ => .nil, .nil⟩
  · rintro s c t d - - hI hin ⟨⟩
    exact hI.insert hin c d
  · exact fun hI _ => hI.remove _ _
  · intro s c dt hI
    simp only [zTimeoutQAdvance]
    split
    · exact hI
    · exact .migrate ⟨hI.bucket, hI.overflow, hI.bucket_nodup, hI.overflow_nodup⟩
  intro s c t s' hI hpop
  simp only [zTimeoutQPopDue] at hpop
  split at hpop
  · simp at hpop
  · next ts hb =>
    cases hpop
    exact hI.takeBucket (by rw [hb]; exact sublist_cons_self _ _)

theorem removeFrames (h : Filed s) (c : ℕ) (t : τ) : RemoveFrames (queue W τ) s c t := by
  have hother : ∀ u, u ≠ t → ((u ∈ (zTimeoutQRemove s c t).1.overflow ↔ u ∈ s.overflow) ∧
      ∀ i, u ∈ (zTimeoutQRemove s c t).1.bucket i ↔ u ∈ s.bucket i) := by
    intro u hu
    simp only [zTimeoutQRemove]
    split
    · refine ⟨.rfl, fun i => ?_⟩
      simp only [takeBucket]
      by_cases hi : i = uint64 (s.dticks t)
      · rw [hi, update_self, mem_erase_of_ne hu]
      · rw [update_of_ne hi]
    · exact ⟨mem_erase_of_ne hu, fun _ => .rfl⟩
  have hself : t ∉ (zTimeoutQRemove s c t).1.overflow ∧
      ∀ i, t ∉ (zTimeoutQRemove s c t).1.bucket i := by
    simp only [zTimeoutQRemove]
    split
    · refine ⟨fun ho => absurd (h.overflow t ho) (by omega), fun i hi => ?_⟩
      simp only [takeBucket] at hi
      by_cases heq : i = uint64 (s.dticks t)
      · rw [heq, update_self] at hi
        exact (h.bucket_nodup _).not_mem_erase hi
      · rw [update_of_ne heq] at hi
        exact heq (h.uint64_index hi).symm
    · refine ⟨h.overflow_nodup.not_mem_erase, fun i hi => ?_⟩
      have := h.uint64_index hi
      have := (h.bucket i t hi).1
      omega
  refine ⟨(h.remove c t).inactive_iff.2 hself, fun u hu hin => ⟨?_, ?_⟩⟩
  · rw [← Bool.not_eq_true, h.inactive_iff] at hin
    rw [← Bool.not_eq_true, (h.remove c t).inactive_iff]
    rwa [(hother u hu).1, forall_congr' fun i => not_congr ((hother u hu).2 i)]
  · simp only [zTimeoutQRemove]
    split <;> rfl

end Bucket

namespace SkipList

variable {L : Levels}

theorem reaches_models_kernel (h : Reaches (system (backend L τ) cfg) ok es k) :
    ∃ q p, Models L k.queue q p := by
  refine reaches_queue (I := fun s => ∃ q p, Models L s q p) ⟨[], [], .empty⟩ ?_ ?_ ?_ ?_ h
  · rintro s c t d - - ⟨q, p, hm⟩ hin ⟨⟩
    exact ⟨_, _, hm.insert (by simpa using hin) c d⟩
  · rintro s - t ⟨q, p, hm⟩ hin
    have ht : s.height t ≠ 0 := by simpa using hin
    exact ⟨_, _, hm.remove (by omega)⟩
  · exact fun hI => hI
  · rintro s c t s' ⟨q, p, hm⟩ hpop
    have hp := hm.popDue c
    rw [show zTimeoutQPopDue s c = some (t, s') from hpop] at hp
    obtain ⟨-, -, -, -, -, hm'⟩ := hp
    exact ⟨_, _, hm'⟩

theorem removeFrames (h : Models L s q p) (c : ℕ) (ht : (queue L τ).isInactive s t = false) :
    RemoveFrames (queue L τ) s c t := by
  have hact : s.height t ≠ 0 := by simpa using ht
  have hm := h.remove (t := t) (by omega)
  have hheight : ∀ u, (zTimeoutQRemove s t).1.height u = 0 ↔ u = t ∨ s.height u = 0 := by
    intro u
    have h1 := hm.mem_iff (t := u)
    have h2 := h.mem_iff (t := u)
    rw [map_fst_dropKey, mem_filter, decide_eq_true_eq, h2] at h1
    by_cases hut : u = t
    · simp only [hut, ne_eq, not_true_eq_false, and_false, false_iff, true_or, iff_true] at h1 ⊢
      omega
    · simp only [hut, ne_eq, not_false_eq_true, and_true, false_or] at h1 ⊢
      omega
  refine ⟨decide_eq_true ((hheight t).2 (.inl rfl)), fun u hu hin => ⟨decide_eq_false ?_, rfl⟩⟩
  have hin : s.height u ≠ 0 := by simpa using hin
  rw [hheight]
  tauto

end SkipList

namespace MinHeap

open Sys

variable {capacity : ℕ}

theorem reaches_placed (h : Reaches (system (backend capacity τ) cfg) ok es k) :
    k.queue.heap.Placed := by
  refine reaches_queue (I := fun s : State τ => s.heap.Placed) refines.init.placed ?_ ?_ ?_ ?_ h
  · intro s c t d s' b hp hin hins
    simp only [zTimeoutQInsert] at hins
    split at hins
    · next heap hpush =>
      cases hins
      exact (hp.push (κ := ℤ) hpush rfl).1
    · simp at hins
  · exact fun hp hin => (hp.remove _ (κ := ℤ) (by simpa using hin)).1
  · exact fun hp => hp
  · intro s c t s' hp hpop
    simp only [zTimeoutQPopDue] at hpop
    split at hpop
    · simp at hpop
    split at hpop
    · simp at hpop
    · next u hroot _ =>
      have hpeek : minHeapRefPeek s.heap = some u := hroot
      simp only [minHeapRefPop, hpeek] at hpop
      obtain ⟨-, rfl⟩ := hpop
      exact (hp.remove _ (κ := ℤ) (by rw [hp.idx_of_peek hpeek]; exact one_ne_zero)).1

theorem removeFrames (h : s.heap.Placed) (c : ℕ) (ht : (queue capacity τ).isInactive s t = false) :
    RemoveFrames (queue capacity τ) s c t := by
  have hidx : s.heap.idx t ≠ 0 := by simpa using ht
  obtain ⟨-, -, hmem, -⟩ := h.remove (timeoutLess s.absTicks) (κ := ℤ) hidx
  refine ⟨decide_eq_true ((hmem t).2 (.inl rfl)), fun u hu hin => ⟨decide_eq_false ?_, rfl⟩⟩
  have hin : s.heap.idx u ≠ 0 := by simpa using hin
  change ¬(minHeapRefRemove (timeoutLess s.absTicks) s.heap t).1.idx u = 0
  rw [hmem]
  tauto

end MinHeap

namespace Wheel

variable {s : State τ} {t u : τ}

/-- `t` is on the distant list, in front of others, with a delta they depend on. -/
def CarriesDelta (s : State τ) (t : τ) : Prop :=
  t ∈ s.lists .distant ∧ s.dticks t ≠ 0 ∧ (s.lists .distant).getLast? ≠ some t

theorem remove_distant_keys (h : Wf s) :
    deltaKeys (timeoutWheelRemoveTimeout s t).dticks (cutoff (timeoutWheelRemoveTimeout s t))
      ((timeoutWheelRemoveTimeout s t).lists .distant) =
      deltaKeys s.dticks (cutoff s) ((s.lists .distant).erase t) := by
  have hu := unlinks_remove s t
  rw [hu.lists, hu.indices.cutoff]
  refine deltaKeys_congr fun v hv => (hu.fields v ?_).dticks
  rintro rfl
  exact (h.nodup _).not_mem_erase hv

theorem remainder_remove (h : Wf s) (hc : ¬CarriesDelta s t) (hu : u ≠ t) (hl : Linked s u) :
    timeoutWheelRemainder (timeoutWheelRemoveTimeout s t) u = timeoutWheelRemainder s u := by
  have hun := unlinks_remove s t
  have hw' := hun.wf h
  obtain ⟨x, hx⟩ := hl
  by_cases hd : x = .distant
  · subst hd
    have hmem : u ∈ (s.lists .distant).erase t := (mem_erase_of_ne hu).2 hx
    have hkey : u ∈ (deltaKeys s.dticks (cutoff s) ((s.lists .distant).erase t)).map Prod.fst := by
      simpa using hmem
    obtain ⟨⟨u, e⟩, he, rfl⟩ := mem_map.1 hkey
    rw [remainder_distant hw' (by rwa [remove_distant_keys h])]
    refine (remainder_distant h ?_).symm
    by_cases htd : t ∈ s.lists .distant
    · refine deltaKeys_erase_subset (h.nodup _) ?_ _ he
      by_contra hno
      rw [not_or] at hno
      exact hc ⟨htd, hno⟩
    · rwa [erase_of_not_mem htd] at he
  · exact (near_of_fields ⟨x, hd, hx⟩ h hun.indices (fun _ => hun.mem hu)
      fun _ => hun.fields u hu).2

theorem removeFrames_iff (h : Wf s) (c : ℕ) : RemoveFrames (queue τ) s c t ↔ ¬CarriesDelta s t := by
  have hun := unlinks_remove s t
  have hw' := hun.wf h
  refine ⟨fun hf hc => ?_, fun hc => ⟨hw'.inactive_iff.2 (hun.notMem h), fun u hu hin => ⟨?_, ?_⟩⟩⟩
  · -- the successor loses the delta of `t`
    obtain ⟨htd, hne, hlast⟩ := hc
    obtain ⟨u, e, hu, he, he'⟩ := exists_deltaKeys_shift
      (h.nodup _) htd hlast
    have hmem : u ∈ s.lists .distant := by simpa using mem_map_of_mem (f := Prod.fst) he
    have hrem : timeoutWheelRemainder (timeoutWheelRemoveTimeout s t) u =
        timeoutWheelRemainder s u := (hf.2 u hu (h.active_iff.2 ⟨_, hmem⟩)).2
    rw [remainder_distant h he, remainder_distant hw' (by rwa [remove_distant_keys h])] at hrem
    omega
  · rw [h.active_iff] at hin
    refine hw'.active_iff.2 ?_
    obtain ⟨x, hx⟩ := hin
    exact ⟨x, (hun.mem hu).2 hx⟩
  · exact remainder_remove h hc hu (h.active_iff.1 hin)

end Wheel

/-- Removing a pending timeout frames every other one: always in four of the backends, and in the
timer wheel exactly when it does not carry a delta that others on the distant list count on. -/
theorem remove_frames_others (W : Bucket.Window) (L : SkipList.Levels) (capacity : ℕ)
    (cfg : Config) :
    (∀ es k t, Reaches (system (DeltaList.backend τ) cfg) (fun _ _ => True) es k →
      (DeltaList.queue τ).isInactive k.queue t = false →
        RemoveFrames (DeltaList.queue τ) k.queue k.currTick t) ∧
    (∀ es k t, Reaches (system (Bucket.backend W τ) cfg) (fun _ _ => True) es k →
      (Bucket.queue W τ).isInactive k.queue t = false →
        RemoveFrames (Bucket.queue W τ) k.queue k.currTick t) ∧
    (∀ es k t, Reaches (system (SkipList.backend L τ) cfg) (fun _ _ => True) es k →
      (SkipList.queue L τ).isInactive k.queue t = false →
        RemoveFrames (SkipList.queue L τ) k.queue k.currTick t) ∧
    (∀ es k t, Reaches (system (MinHeap.backend capacity τ) cfg) (fun _ _ => True) es k →
      (MinHeap.queue capacity τ).isInactive k.queue t = false →
        RemoveFrames (MinHeap.queue capacity τ) k.queue k.currTick t) ∧
    (∀ es k t, Reaches (system (Wheel.backend τ) cfg) (fun _ _ => True) es k →
      (Wheel.queue τ).isInactive k.queue t = false →
        (RemoveFrames (Wheel.queue τ) k.queue k.currTick t ↔ ¬Wheel.CarriesDelta k.queue t)) := by
  refine ⟨fun es k t h _ => ?_, fun es k t h _ => ?_, fun es k t h ht => ?_, fun es k t h ht => ?_,
    fun es k t h _ => ?_⟩
  · exact DeltaList.removeFrames (DeltaList.reaches_nodup h) _ t
  · exact Bucket.removeFrames (Bucket.reaches_filed h) _ t
  · obtain ⟨q, p, hm⟩ := SkipList.reaches_models_kernel h
    exact SkipList.removeFrames hm _ ht
  · exact MinHeap.removeFrames (MinHeap.reaches_placed h) _ ht
  · exact Wheel.removeFrames_iff (Wheel.reaches_sound h).wf _

theorem remove_frames_others_last : ∃ es k,
    Reaches (system (Wheel.backend ℕ) ⟨true, false⟩) (fun _ _ => True) es k ∧
    es = [.added 0 1101, .added 1 1201] ∧
    RemoveFrames (Wheel.queue ℕ) k.queue k.currTick 1 := by
  obtain ⟨es, k, hrun, hes, hin, hlast⟩ := Reaches.of_exec (system (Wheel.backend ℕ) ⟨true, false⟩)
    (fun _ _ => True) [.add 0 0 1100 0, .add 0 1 1200 0]
    (fun es k => es = [.added 0 1101, .added 1 1201] ∧
      (Wheel.queue ℕ).isInactive k.queue 1 = false ∧ (k.queue.lists .distant).getLast? = some 1)
    (by decide +kernel)
  refine ⟨es, k, hrun, hes, ?_⟩
  exact ((remove_frames_others Bucket.window8 SkipList.levels4 128 ⟨true, false⟩).2.2.2.2
    es k 1 hrun hin).2 fun hc => hc.2.2 hlast

/-- With the first one gone, the second is 45 ticks early. -/
theorem remove_distant_shifts : ∃ es k,
    Reaches (system (Wheel.backend ℕ) ⟨true, false⟩) (fun _ _ => True) es k ∧
    es = [.added 0 1101, .added 1 1201] ∧
    Wheel.timeoutWheelRemainder k.queue 1 = 1201 ∧
    Wheel.timeoutWheelRemainder (Wheel.zTimeoutQRemove k.queue 0).1 1 = 1156 := by
  exact Reaches.of_exec _ _ [.add 0 0 1100 0, .add 0 1 1200 0] _ (by decide +kernel)

end ZephyrRtos.Timeout
