import Mathlib.Data.Prod.Lex
import ZephyrRtos.Timeout.WheelLaws

/-! Runs of the timer wheel: the invariant of every reachable wheel, and what becomes
of a timeout that was within reach of the later lists when it was added. -/

namespace ZephyrRtos.Timeout.Wheel

open List Lib

variable {τ : Type} [DecidableEq τ] {cfg : Config}

def busy : Phase → ℕ
  | .idle | .top => 0
  | .drain _ | .handler _ => 1

structure Sound (k : Kernel (queue τ)) : Prop where
  wf : Wf k.queue
  rests : Rests k.queue
  announcing : k.queue.announcing = busy k.phase
  cpu : k.phase = .idle ↔ k.announcingCpu = none
  remaining : k.announceRemaining < 2 ^ 32

section Loop

variable {k : Kernel (queue τ)}

theorem Wf.inactive_iff (h : Wf s) : (queue τ).isInactive s t = true ↔ ∀ x, t ∉ s.lists x := by
  simp only [decide_eq_true_eq]
  exact ⟨fun hall x hx => hall x (h.slot_mem_all hx) hx, fun hnot x _ => hnot x⟩

theorem Wf.active_iff (h : Wf s) : (queue τ).isInactive s t = false ↔ Linked s t := by
  rw [← Bool.not_eq_true, h.inactive_iff]
  push Not
  rfl

theorem announce_cases (cfg : Config) (h : Sound k) (hl : k.lockFree = false) :
    (∃ n, k.phase = .top ∧ n ≤ k.announceRemaining ∧
      ∃ q phase remaining, Passes k.queue q n ∧ q.announcing = busy phase ∧
        (phase = .top ∧ n = k.announceRemaining ∧ remaining = 0 ∨
          phase = .drain n ∧ remaining = k.announceRemaining) ∧
        zTimeoutQAnnounce cfg k = { k with
          queue := q, currTick := k.currTick + n, announceRemaining := remaining, phase }) ∨
    (k.phase = .top ∧ k.announceRemaining = 0 ∧ zTimeoutQAnnounce cfg k = announceEnd cfg k) ∨
    (∃ n t, k.phase = .drain n ∧ t ∈ k.queue.lists (.soon k.queue.soonIndex) ∧
      zTimeoutQAnnounce cfg k = { k with
        queue := timeoutWheelClearFlags (sysDlistRemove k.queue t) t
        inflight := some (t, false)
        phase := .handler n }) ∨
    (∃ n, k.phase = .drain n ∧ k.queue.lists (.soon k.queue.soonIndex) = [] ∧
      zTimeoutQAnnounce cfg k = { k with
        queue := announceNowEnd k.queue
        announceRemaining := uint32 (k.announceRemaining - n)
        phase := .top }) := by
  cases hp : k.phase with
  | idle => simp [Kernel.lockFree, hp] at hl
  | handler n => simp [Kernel.lockFree, hp] at hl
  | top =>
    have ha : k.queue.announcing = 0 := by rw [h.announcing, hp]; rfl
    by_cases h0 : 0 < k.announceRemaining
    · left
      by_cases hn : k.announceRemaining < numTicksToAdvance k.queue
      · have hskip : Passes k.queue (skip k.queue k.announceRemaining) k.announceRemaining :=
          ⟨rfl, rfl, rfl, rfl, rfl, rfl, rfl, fun _ => by simp [skip, ha], .inl ⟨h0, hn, ha⟩⟩
        refine ⟨_, rfl, le_rfl, _, .top, 0, hskip, ha, .inl ⟨rfl, rfl, rfl⟩, ?_⟩
        simp [zTimeoutQAnnounce, hp, if_pos h0, if_pos hn]
      · refine ⟨_, rfl, Nat.le_of_not_lt hn, _, .drain _, _, passes_land k.queue, rfl,
          .inr ⟨rfl, rfl⟩, ?_⟩
        simp [zTimeoutQAnnounce, hp, if_pos h0, if_neg hn]
    · right; left
      exact ⟨rfl, by omega, by simp only [zTimeoutQAnnounce, hp, if_neg h0]⟩
  | drain n =>
    right; right
    cases hd : (k.queue.lists (.soon k.queue.soonIndex)).head? with
    | some t =>
      left
      exact ⟨n, t, rfl, mem_of_mem_head? hd, by simp only [zTimeoutQAnnounce, hp, hd]⟩
    | none =>
      right
      exact ⟨n, rfl, head?_eq_none_iff.1 hd, by simp only [zTimeoutQAnnounce, hp, hd]⟩

theorem announceEnd_clock (cfg : Config) (k : Kernel (queue τ)) :
    (announceEnd cfg k).queue = k.queue ∧
      SameClock { k with announcingCpu := none, phase := .idle } (announceEnd cfg k) :=
  ⟨reprogram_queue _ _, reprogram_clock cfg _ 0⟩

theorem Sound.drained (h : Sound k) (hp : k.phase = .drain n) :
    k.queue.announcing = 1 ∧ k.queue.sifted = 0 := by
  have ha : k.queue.announcing = 1 := by rw [h.announcing, hp]; rfl
  have := h.rests.1
  have := h.rests.2
  exact ⟨ha, by omega⟩

theorem Sound.top (h : Sound k) (hp : k.phase = .top) : k.queue.announcing = 0 := by
  rw [h.announcing, hp]
  rfl

theorem Sound.loop (cfg : Config) (h : Sound k) (hl : k.lockFree = false) : Sound (zTimeoutQAnnounce cfg k) := by
  obtain ⟨n, hp, -, q, phase, rem, hq, hb, hcase, heq⟩ | ⟨hp, -, heq⟩ | ⟨n, t, hp, -, heq⟩ |
    ⟨n, hp, hnil, heq⟩ := announce_cases cfg h hl
  · rw [heq]
    refine ⟨hq.wf h.wf h.rests (h.top hp), hq.rests h.wf.soonIndex, hb, ?_, ?_⟩
    · rcases hcase with ⟨rfl, -⟩ | ⟨rfl, -⟩ <;> simpa [hp] using h.cpu
    · have := h.remaining
      rcases hcase with ⟨-, -, rfl⟩ | ⟨-, rfl⟩
      · simp
      · exact this
  · obtain ⟨hq, hc⟩ := announceEnd_clock cfg k
    rw [heq]
    exact ⟨hq ▸ h.wf, hq ▸ h.rests, by rw [hq, hc.phase, h.announcing, hp]; rfl,
      by rw [hc.phase, hc.announcingCpu]; simp, by rw [hc.announceRemaining]; exact h.remaining⟩
  · rw [heq]
    exact ⟨(unlinks_pop k.queue t).wf h.wf, h.rests, h.announcing.trans (by rw [hp]; rfl),
      by simpa [hp] using h.cpu, h.remaining⟩
  · obtain ⟨hw, hr, ha, -⟩ := announceNowEnd_spec h.wf hnil (h.drained hp).2
    rw [heq]
    exact ⟨hw, hr, ha, by simpa [hp] using h.cpu, uint32_lt _⟩

end Loop

section Steps

variable {k k' : Kernel (queue τ)} {a : Action τ} {es es' : List (Event τ)}

theorem Sound.of_queue (h : Sound k) (hw : Wf k'.queue) (hi : SameIndices k.queue k'.queue)
    (hc : SameClock k k') : Sound k' where
  wf := hw
  rests := by
    simp only [Rests, hi.sifted, hi.soonIndex, hi.announcing]
    exact h.rests
  announcing := by rw [hi.announcing, hc.phase, h.announcing]
  cpu := by rw [hc.phase, hc.announcingCpu]; exact h.cpu
  remaining := by rw [hc.announceRemaining]; exact h.remaining

theorem Sound.step (h : Sound k) (hs : step (backend τ) cfg k a = some (k', es')) : Sound k' := by
  cases a with
  | add cpu t ticks sysElapsed =>
    obtain ⟨-, hin, -⟩ := step_add hs
    have hnot := h.wf.inactive_iff.1 hin
    obtain ⟨rfl, -⟩ | ⟨-, first, hins, rfl, hc, -⟩ := step_add_queue hs
    · exact h
    · exact h.of_queue (h.wf.insert hnot (addDticks_le ..) hins) (h.wf.inserts hnot hins).indices hc
  | abort cpu t sysElapsed =>
    obtain ⟨hc, ⟨-, -, hq⟩ | ⟨-, -, hq⟩⟩ := step_abort_queue hs
    · exact h.of_queue (hq ▸ h.wf) (hq ▸ ⟨rfl, rfl, rfl, rfl⟩) hc
    · have hu := unlinks_remove k.queue t
      exact h.of_queue (hq ▸ hu.wf h.wf) (hq ▸ hu.indices) hc
  | announce cpu ticks =>
    obtain ⟨-, hlt, -, ⟨-, -, rfl⟩ | ⟨hnone, rfl⟩⟩ := step_announce hs
    · exact ⟨h.wf, h.rests, h.announcing, h.cpu, Nat.mod_lt _ (by norm_num)⟩
    · have hidle := h.cpu.2 hnone
      exact ⟨h.wf, h.rests, h.announcing.trans (by rw [hidle]; rfl), by simp, hlt⟩
  | loop =>
    obtain ⟨hl, rfl, -⟩ := step_loop hs
    exact h.loop cfg hl
  | handlerReturn =>
    obtain ⟨n, hp, rfl, -⟩ := step_return hs
    exact ⟨h.wf, h.rests, h.announcing.trans (by rw [hp]; rfl), by simpa [hp] using h.cpu,
      h.remaining⟩

theorem sound_boot : Sound (Kernel.boot (queue τ)) where
  wf := {
    soonIndex := show 31 < 32 by norm_num
    laterIndex := show 0 < 32 by norm_num
    announcing := Nat.zero_le 1
    fits _ _ ht := absurd ht not_mem_nil
    nodup _ := .nil
    unlinked _ _ := ⟨rfl, rfl⟩
    bits _ hi := absurd rfl hi
    bound := by simp [Kernel.boot, timeoutWheelInit, deltaKeys] }
  rests := ⟨le_rfl, by simp [Kernel.boot, timeoutWheelInit]⟩
  announcing := rfl
  cpu := by simp [Kernel.boot]
  remaining := by simp [Kernel.boot]

theorem reaches_sound (h : Reaches (system (backend τ) cfg) ok es k) : Sound k :=
  Run.invariant (I := fun _ k => Sound k) sound_boot
    (fun _ _ _ _ _ hi _ hs => hi.step hs) h

/-- The ticks left once the slot at hand is done, and the steps until it is. -/
def workLeft (k : Kernel (queue τ)) : ℕ ×ₗ ℕ :=
  match k.phase with
  | .idle | .top => toLex (k.announceRemaining, 0)
  | .drain n => toLex (uint32 (k.announceRemaining - n),
      2 * (k.queue.lists (.soon k.queue.soonIndex)).length + 1)
  | .handler n => toLex (uint32 (k.announceRemaining - n),
      2 * (k.queue.lists (.soon k.queue.soonIndex)).length + 2)

theorem Sound.loop_workLeft (h : Sound k) (hl : k.lockFree = false) :
    (zTimeoutQAnnounce cfg k).phase = .idle ∨ workLeft (zTimeoutQAnnounce cfg k) < workLeft k := by
  have hrem := h.remaining
  obtain ⟨n, hp, hle, q, phase, rem, hq, -, hcase, heq⟩ | ⟨-, -, heq⟩ | ⟨n, t, hp, ht, heq⟩ |
    ⟨n, hp, hnil, heq⟩ := announce_cases cfg h hl
  · have hpos := (hq.ticks_le h.wf.soonIndex).1
    rw [heq]
    rcases hcase with ⟨rfl, rfl, rfl⟩ | ⟨rfl, rfl⟩
    · simp only [workLeft, hp, Prod.Lex.toLex_lt_toLex]
      omega
    · have hsub : (uint32 (k.announceRemaining - n) : ℤ) = k.announceRemaining - n :=
        uint32_eq
      simp only [workLeft, hp, Prod.Lex.toLex_lt_toLex]
      omega
  · left
    rw [heq, (announceEnd_clock cfg k).2.phase]
  · right
    have hlen : ((k.queue.lists (.soon k.queue.soonIndex)).erase t).length =
        (k.queue.lists (.soon k.queue.soonIndex)).length - 1 := length_erase_of_mem ht
    have hpos := length_pos_of_mem ht
    rw [heq]
    simp only [workLeft, hp, timeoutWheelClearFlags, sysDlistRemove, Prod.Lex.toLex_lt_toLex, hlen]
    exact .inr ⟨trivial, by omega⟩
  · rw [heq]
    simp [workLeft, hp, Prod.Lex.toLex_lt_toLex]

theorem Sound.completes (h : Sound k) :
    ∃ es' k', Run (system (backend τ) cfg) (fun _ a => a.unattended) k es' k' ∧
      k'.phase = .idle := by
  refine completes_of_measure (I := fun _ k => Sound k) (μ := fun _ => workLeft)
    ?_ ?_ [] h
  · exact fun _ k h hl => ⟨h.loop cfg hl, h.loop_workLeft hl⟩
  · intro _ k n h hp
    refine ⟨h.step (step_return_eq cfg hp), ?_⟩
    simp [workLeft, hp, Prod.Lex.toLex_lt_toLex]

end Steps

section Track

variable {k k' : Kernel (queue τ)} {a : Action τ} {es es' : List (Event τ)} {t : τ}

def Action.within (t : τ) (cfg : Config) (k : Kernel (queue τ)) (a : Action τ) : Prop :=
  ∀ cpu ticks sysElapsed, a = .add cpu t ticks sysElapsed → ticks ≠ ticksForever →
    1 ≤ addDticks cfg k cpu ticks sysElapsed ∧ addDticks cfg k cpu ticks sysElapsed ≤ cutoff k.queue

instance Action.decidableWithin (t : τ) (cfg : Config) (k : Kernel (queue τ)) (a : Action τ) :
    Decidable (Action.within t cfg k a) :=
  match a with
  | .add cpu u ticks sysElapsed =>
    decidable_of_iff (u = t → ticks ≠ ticksForever → 1 ≤ addDticks cfg k cpu ticks sysElapsed ∧
        addDticks cfg k cpu ticks sysElapsed ≤ cutoff k.queue)
      ⟨by rintro h _ _ _ ⟨⟩; exact h rfl, by rintro h rfl; exact h _ _ _ rfl⟩
  | .abort .. | .announce .. | .loop | .handlerReturn => isTrue (by rintro _ _ _ ⟨⟩)

/-- The trace and the wheel agree about `t`. -/
structure Follows (t : τ) (es : List (Event τ)) (k : Kernel (queue τ)) : Prop where
  sound : Sound k
  linked : Linked k.queue t ↔ ∃ e, (t, e) ∈ pendingOf es
  remainder : ∀ e, (t, e) ∈ pendingOf es →
    Near k.queue t ∧ k.currTick + timeoutWheelRemainder k.queue t = e
  onTime : FiredOnTime t es

theorem Follows.keep (h : Follows t es k) (hs : Sound k')
    (hl : Linked k'.queue t ↔ Linked k.queue t)
    (hr : Near k.queue t → Near k'.queue t ∧ k'.currTick + timeoutWheelRemainder k'.queue t =
      k.currTick + timeoutWheelRemainder k.queue t)
    (hes : es' = [] ∨ ∃ e, es' = [e] ∧ e.subject ≠ some t) : Follows t (es ++ es') k' := by
  have hpend : ∀ x, (t, x) ∈ pendingOf (es ++ es') ↔ (t, x) ∈ pendingOf es := by
    intro x
    rcases hes with rfl | ⟨e, rfl, he⟩
    · rw [append_nil]
    · exact mem_pendingOf_of_other he
  refine ⟨hs, ?_, fun e he => ?_, ?_⟩
  · rw [hl, h.linked]
    exact exists_congr fun x => (hpend x).symm
  · obtain ⟨hn, hrem⟩ := h.remainder e ((hpend e).1 he)
    exact ⟨(hr hn).1, (hr hn).2.trans hrem⟩
  · rcases hes with rfl | ⟨e, rfl, he⟩
    · rw [append_nil]
      exact h.onTime
    · exact h.onTime.snoc fun c hc => absurd (by rw [hc]; rfl) he

theorem near_of_fields (hn : Near s t) (hw : Wf s) (hi : SameIndices s s')
    (hm : ∀ x, t ∈ s'.lists x ↔ t ∈ s.lists x) (hf : t ∉ s.lists .distant → SameFields s s' t) :
    Near s' t ∧ timeoutWheelRemainder s' t = timeoutWheelRemainder s t := by
  obtain ⟨x, hx, ht⟩ := hn
  refine ⟨⟨x, hx, (hm x).2 ht⟩, remainder_congr (hw.flagged hx ht) (hf fun hd => ?_) hi⟩
  exact hx (hw.slot_unique ht hd)

theorem Follows.add (h : Follows t es k) (ha : Action.within t cfg k (.add cpu u ticks sysElapsed))
    (hs : step (backend τ) cfg k (.add cpu u ticks sysElapsed) = some (k', es')) :
    Follows t (es ++ es') k' := by
  have hsound := h.sound.step hs
  obtain ⟨-, hin, -, -, hcase⟩ := step_add hs
  have hnot := h.sound.wf.inactive_iff.1 hin
  obtain ⟨rfl, rfl⟩ | ⟨-, first, hins, rfl, hc, rfl⟩ := step_add_queue hs
  · simpa using h
  by_cases hut : u = t
  · subst hut
    have hne : ticks ≠ ticksForever := by
      rcases hcase with ⟨-, -, hnil⟩ | ⟨hne, -⟩
      · simp at hnil
      · exact hne
    obtain ⟨h1, hcut⟩ := ha cpu ticks sysElapsed rfl hne
    obtain ⟨hnear, hrem⟩ := h.sound.wf.insert_near h.sound.rests hnot h1 hcut (addDticks_le ..) hins
    have hfresh : ∀ e, (u, e) ∉ pendingOf es := fun e he =>
      (not_exists.2 hnot) (h.linked.2 ⟨e, he⟩)
    refine ⟨hsound, ?_, fun e he => ?_, h.onTime.snoc nofun⟩
    · refine iff_of_true (hnear.imp fun x hx => hx.2)
        ⟨k.currTick + addDticks cfg k cpu ticks sysElapsed, ?_⟩
      rw [pendingOf_snoc]
      exact mem_append_right _ (mem_singleton_self _)
    · rw [pendingOf_snoc, Event.apply, mem_append, mem_singleton] at he
      have he := (he.resolve_left (hfresh e))
      rw [(Prod.mk.inj he).2, hc.currTick, hrem]
      exact ⟨hnear, rfl⟩
  · have hi := h.sound.wf.inserts hnot hins
    refine h.keep hsound (exists_congr (hi.mem t (.symm hut))) (fun hn => ?_)
      (.inr ⟨_, rfl, by simpa [Event.subject] using hut⟩)
    obtain ⟨hn', hrem⟩ := near_of_fields hn h.sound.wf hi.indices (hi.mem t (.symm hut))
      (hi.fields t (.symm hut))
    exact ⟨hn', by rw [hrem, hc.currTick]⟩

theorem Follows.unlink (h : Follows t es k) (hs : Sound k') (hu : Unlinks k.queue k'.queue u)
    (hc : k'.currTick = k.currTick) (he : e = .aborted u ∨ ∃ c, e = .fired u c)
    (hfire : ∀ c : ℕ, e = .fired t c → (t, (c : ℤ)) ∈ pendingOf es) : Follows t (es ++ [e]) k' := by
  have hsub : e.subject = some u := by rcases he with rfl | ⟨-, rfl⟩ <;> rfl
  by_cases hut : u = t
  · subst hut
    have hgone : ∀ x, (u, x) ∉ pendingOf (es ++ [e]) := by
      rcases he with rfl | ⟨-, rfl⟩ <;> simp [Event.apply]
    refine ⟨hs, ?_, fun x hx => absurd hx (hgone x), h.onTime.snoc hfire⟩
    exact iff_of_false (not_exists.2 (hu.notMem h.sound.wf)) (not_exists.2 hgone)
  have hmem : ∀ x, t ∈ k'.queue.lists x ↔ t ∈ k.queue.lists x := fun x => hu.mem (.symm hut)
  refine h.keep hs (exists_congr hmem) (fun hn => ?_)
    (.inr ⟨e, rfl, by rw [hsub]; simpa using hut⟩)
  obtain ⟨hn', hrem⟩ := near_of_fields hn h.sound.wf hu.indices hmem
    (fun _ => hu.fields t (.symm hut))
  exact ⟨hn', by rw [hrem, hc]⟩

theorem Follows.loop (h : Follows t es k) (hl : k.lockFree = false) :
    Follows t (es ++ (zTimeoutQAnnounce cfg k).dispatched) (zTimeoutQAnnounce cfg k) := by
  have hsound := h.sound.loop cfg hl
  have hw := h.sound.wf
  obtain ⟨n, hp, -, q, phase, rem, hq, -, hcase, heq⟩ | ⟨-, -, heq⟩ | ⟨n, u, hp, hu, heq⟩ |
    ⟨n, hp, hnil, heq⟩ := announce_cases cfg h.sound hl
  · have hdisp : (zTimeoutQAnnounce cfg k).dispatched = [] := by
      rw [heq]
      rcases hcase with ⟨rfl, -⟩ | ⟨rfl, -⟩ <;> rfl
    rw [hdisp]
    refine h.keep hsound ?_ ?_ (.inl rfl)
    · simp [heq, Linked, hq.lists]
    rintro ⟨x, hx, ht⟩
    have hrem := hq.remainder hw h.sound.rests (h.sound.top hp) hx ht
    simp only [heq, Near, hq.lists]
    refine ⟨⟨x, hx, ht⟩, ?_⟩
    omega
  · obtain ⟨hq, hc⟩ := announceEnd_clock cfg k
    rw [heq] at hsound ⊢
    rw [end_dispatched]
    refine h.keep hsound (by rw [hq]) (fun hn => ?_) (.inl rfl)
    rw [hq, hc.currTick]
    exact ⟨hn, rfl⟩
  · rw [heq] at hsound ⊢
    refine h.unlink hsound (unlinks_pop k.queue u) rfl (.inr ⟨_, rfl⟩) ?_
    rintro c ⟨⟩
    -- in the slot being announced the remainder is zero
    obtain ⟨e, he⟩ := h.linked.1 ⟨_, hu⟩
    have hrem := (h.remainder e he).2
    rw [remainder_soon hw hu, (h.sound.drained hp).1] at hrem
    rwa [show (k.currTick : ℤ) = e by omega]
  · obtain ⟨-, -, -, hkeep⟩ := announceNowEnd_spec hw hnil (h.sound.drained hp).2
    have hdisp : (zTimeoutQAnnounce cfg k).dispatched = [] := by rw [heq]; rfl
    rw [hdisp]
    refine h.keep hsound ?_ (fun hn => ?_) (.inl rfl)
    · rw [heq]
      exact hkeep.linked t
    · rw [heq]
      exact ⟨hkeep.near t hn, by rw [hkeep.remainder t hn]⟩

theorem Follows.step (h : Follows t es k) (ha : Action.within t cfg k a)
    (hs : step (backend τ) cfg k a = some (k', es')) : Follows t (es ++ es') k' := by
  have hsound := h.sound.step hs
  cases a with
  | add cpu u ticks sysElapsed => exact h.add ha hs
  | abort cpu u sysElapsed =>
    obtain ⟨hc, ⟨-, rfl, hq⟩ | ⟨-, rfl, hq⟩⟩ := step_abort_queue hs
    · exact h.keep hsound (by rw [hq]) (fun hn => by rw [hq, hc.currTick]; exact ⟨hn, rfl⟩) (.inl rfl)
    · exact h.unlink hsound (hq ▸ unlinks_remove k.queue u) hc.currTick (.inl rfl) nofun
  | announce cpu ticks =>
    obtain ⟨-, -, rfl, ⟨-, -, rfl⟩ | ⟨-, rfl⟩⟩ := step_announce hs <;>
      exact h.keep hsound .rfl (fun hn => ⟨hn, rfl⟩) (.inr ⟨_, rfl, by simp [Event.subject]⟩)
  | loop =>
    obtain ⟨hl, rfl, rfl⟩ := step_loop hs
    exact h.loop hl
  | handlerReturn =>
    obtain ⟨n, -, rfl, rfl⟩ := step_return hs
    exact h.keep hsound .rfl (fun hn => ⟨hn, rfl⟩) (.inl rfl)

theorem follows_boot (t : τ) : Follows t [] (Kernel.boot (queue τ)) where
  sound := sound_boot
  linked := by simp [Linked, Kernel.boot, timeoutWheelInit]
  remainder := by simp
  onTime es₁ c es₂ h := by
    simp at h

/-- A timeout within reach of the later lists when it is added fires once, at the tick
it was added for, whatever happens to the others; while it is pending its remainder is
what is left to that tick. -/
theorem fires_at_expiry {es : List (Event τ)} {k : Kernel (queue τ)} (t : τ)
    (h : Reaches (system (backend τ) cfg) (Action.within t cfg) es k) :
    ((queue τ).isInactive k.queue t = false ↔ ∃ e, (t, e) ∈ pendingOf es) ∧
      (∀ e, (t, e) ∈ pendingOf es →
        timeoutWheelRemainder k.queue t = e - k.currTick ∧ (k.phase = .idle → k.currTick < e)) ∧
      FiredOnTime t es ∧
      (∀ es₁ es₂, es = es₁ ++ es₂ → t ∉ (pendingOf es₁).map Prod.fst →
        (∀ e, .added t e ∉ es₂) → ∀ c, .fired t c ∉ es₂) ∧
      ∃ es' k', Run (system (backend τ) cfg) (fun _ a => a.unattended) k es' k' ∧
        k'.phase = .idle := by
  have hf : Follows t es k := h.invariant (follows_boot t) fun _ _ _ _ _ hi ha hs => hi.step ha hs
  have hw := hf.sound.wf
  refine ⟨hw.active_iff.trans hf.linked, fun e he => ?_, hf.onTime,
    fun _ _ => hf.onTime.not_fired_of_none, hf.sound.completes⟩
  obtain ⟨⟨x, hx, ht⟩, hrem⟩ := hf.remainder e he
  refine ⟨by omega, fun hidle => ?_⟩
  have hpos := hw.remainder_pos (by rw [hf.sound.announcing, hidle]; rfl) hx ht
  omega

theorem fires_at_expiry_later : ∃ es k,
    Reaches (system (backend ℕ) ⟨true, false⟩) (Action.within 0 ⟨true, false⟩) es k ∧
    (es, k.currTick) = ([.added 0 40, .announced 41, .fired 0 40], 40) ∧ FiredOnTime 0 es := by
  exact Reaches.of_exec_and [.add 0 0 39 0, .announce 0 41, .loop, .loop, .loop, .loop]
    (by decide +kernel) fun es k hrun => (fires_at_expiry 0 hrun).2.2.1

/-- One tick beyond the later lists: the sift down from the distant list is late by one. -/
theorem distant_fires_late : ∃ es k,
    Reaches (system (backend ℕ) ⟨true, false⟩) (fun _ _ => True) es k ∧
    (es, k.currTick) = ([.added 0 1057, .announced 1058, .fired 0 1058], 1058) := by
  exact Reaches.of_exec _ _ ([.add 0 0 1056 0, .announce 0 1058] ++ replicate 68 .loop) _
    (by decide +kernel)

end Track

end ZephyrRtos.Timeout.Wheel
