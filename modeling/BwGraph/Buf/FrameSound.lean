import BwGraph.Buf.FramePool

/-
  The pool between any calls, those that fail included. The map and the LRU list part company when
  a load ends in an exception (`inSync_iff`), but only in one direction: a frame may be left in the
  list without a mapping, and a mapped page is always in the list, under its number (`Sound`). So
  the lists stay in order in every run, and `retire_page` never unlinks a free frame.

  What the clock picks (`VictimSpec`): a frame without pins and latches, and none only when there
  is none to pick.
-/

namespace BwGraph

open Function List Option

namespace FramePool

variable {α : Type} {ops : PageOps α} {pool pool' : FramePool α} {f : Nat}

/-- What no call breaks, whether it fails or not: the lists are in order, a mapped page is in the
    LRU list under its number, and the hand is set while there is a list. -/
structure Sound (pool : FramePool α) : Prop where
  linked : pool.Linked
  placed : ∀ q f, pool.pageMap q = some f → f ∈ pool.lru ∧ (pool.frames f).pageNo = q
  handed : pool.lru ≠ [] → pool.clockHand ≠ none

/-- A frame that a call has claimed: in the LRU list, and not mapped. -/
structure Owned (pool : FramePool α) (f : Nat) : Prop where
  sound : pool.Sound
  mem : f ∈ pool.lru
  unmapped : ∀ q, pool.pageMap q ≠ some f

theorem Sound.keeps (h : pool.Sound) (hk : pool.Keeps pool')
    (hh : pool'.clockHand = pool.clockHand) : pool'.Sound := by
  refine ⟨h.linked.keeps hk hh, fun q f => ?_, ?_⟩
  · rw [hk.pageMap, hk.lru, hk.pageNo]
    exact h.placed q f
  · rw [hk.lru, hh]
    exact h.handed

theorem Owned.keeps (h : pool.Owned f) (hk : pool.Keeps pool')
    (hh : pool'.clockHand = pool.clockHand) : pool'.Owned f := by
  refine ⟨h.sound.keeps hk hh, hk.lru ▸ h.mem, ?_⟩
  rw [hk.pageMap]
  exact h.unmapped

/-- A claimed frame may get any number and image. -/
theorem Owned.modifyFrame (h : pool.Owned f) (g : PoolFrame α → PoolFrame α) :
    (pool.modifyFrame f g).Owned f := by
  refine ⟨⟨linked_modifyFrame h.sound.linked f g, fun q f' hq => ?_, h.sound.handed⟩, h.mem,
    h.unmapped⟩
  have hne : f' ≠ f := fun he => h.unmapped q (he ▸ hq)
  rw [modifyFrame_ne _ _ hne]
  exact h.sound.placed q f' hq

variable {q : PageNo} {r : Except PoolError Nat}

theorem Owned.insertMap (h : pool.Owned f) (hq : pool.pageMap q = none)
    (hno : (pool.frames f).pageNo = q) : (pool.insertMap q f).Sound := by
  refine ⟨linked_insertMap h.sound.linked q f, fun p g hp => ?_, h.sound.handed⟩
  by_cases hpq : p = q
  · subst hpq
    have hmap : (pool.insertMap p f).pageMap p = some f := by simp [FramePool.insertMap, hq]
    rw [hmap] at hp
    cases hp
    exact ⟨h.mem, hno⟩
  · have hmap : (pool.insertMap q f).pageMap p = pool.pageMap p := by
      simp [FramePool.insertMap, hpq]
    rw [hmap] at hp
    exact h.sound.placed p g hp

section

variable (h : pool.Sound)
include h

theorem Sound.unmapped (hq : pool.cached q = none) : pool.pageMap q = none := by
  cases hm : pool.pageMap q with
  | none => rfl
  | some f =>
    rw [cached, hm, bind_some, if_pos (h.placed q f hm).2] at hq
    cases hq

omit h in
/-- The clock never takes the hand away. -/
theorem clockLoop_handed (start n : Nat) (pool : FramePool α) (hand : Nat)
    (h : pool.clockHand ≠ none) : (clockLoop start n pool hand).2.clockHand ≠ none := by
  induction n generalizing pool hand with
  | zero => exact h
  | succ n ih =>
    have hgo : ∀ pool' : FramePool α, pool'.clockHand = pool.clockHand →
        (if pool.advance hand = start then
            (pool'.fullScan, { pool' with clockHand := some (pool.advance hand) })
          else clockLoop start n pool' (pool.advance hand)).2.clockHand ≠ none := by
      intro pool' hh
      split
      · exact some_ne_none _
      · exact ih pool' _ (hh ▸ h)
    unfold clockLoop
    split_ifs
    · exact hgo pool rfl
    · exact hgo pool rfl
    · exact some_ne_none _
    · exact hgo _ rfl

theorem Sound.findVictimPage (hfree : pool.free = []) :
    pool.findVictimPage.2.Sound ∧ pool.Keeps pool.findVictimPage.2 ∧
      ∀ f, pool.findVictimPage.1 = some f → f ∈ pool.lru := by
  obtain ⟨hk, hl, hmem⟩ := findVictimPage_spec h.linked hfree
  refine ⟨⟨hl, fun q f => ?_, fun hne => ?_⟩, hk, hmem⟩
  · rw [hk.pageMap, hk.lru, hk.pageNo]
    exact h.placed q f
  · rw [hk.lru] at hne
    have hhand := h.handed hne
    unfold FramePool.findVictimPage
    split
    · exact hhand
    · exact clockLoop_handed _ _ pool _ hhand

/-- Relinking a frame of the list at its head, with its mapping gone. -/
theorem Sound.relink (hf : f ∈ pool.lru) :
    (((pool.removeFromLruList f).eraseMap (pool.frames f).pageNo).addToLruHead f).Owned f := by
  have hne : ∀ q g, update pool.pageMap (pool.frames f).pageNo none q = some g →
      q ≠ (pool.frames f).pageNo ∧ pool.pageMap q = some g := by
    intro q g hq
    by_cases he : q = (pool.frames f).pageNo
    · rw [he, update_self] at hq
      cases hq
    · rw [update_of_ne he] at hq
      exact ⟨he, hq⟩
  refine ⟨⟨h.linked.relink hf _, fun q g hq => ?_, fun _ => ?_⟩, mem_cons_self,
    fun q hq => ?_⟩
  · obtain ⟨hqf, hq⟩ := hne q g hq
    obtain ⟨hg, hno⟩ := h.placed q g hq
    have hgf : g ≠ f := fun he => hqf (by rw [← hno, he])
    exact ⟨mem_cons_of_mem _ ((mem_erase_of_ne hgf).2 hg), hno⟩
  · have hhand := h.handed (ne_nil_of_mem hf)
    show (if pool.lru.erase f = [] then some f
      else if pool.clockHand = some f then some (pool.advance f) else pool.clockHand) ≠ none
    split
    · exact nofun
    · split
      · exact nofun
      · exact hhand
  · obtain ⟨hqf, hq⟩ := hne q f hq
    exact hqf (h.placed q f hq).2.symm

theorem Sound.takeFree {rest : List Nat} (hfree : pool.free = f :: rest) :
    ({ pool with free := rest }.addToLruHead f).Owned f := by
  have hf : f ∉ pool.lru := h.linked.disjoint f (hfree ▸ mem_cons_self)
  refine ⟨⟨h.linked.addToLruHead_free hfree, fun q g hq => ?_, fun _ => ?_⟩, mem_cons_self,
    fun q hq => hf (h.placed q f hq).1⟩
  · obtain ⟨hg, hno⟩ := h.placed q g hq
    exact ⟨mem_cons_of_mem _ hg, hno⟩
  · show (if pool.lru = [] then some f else pool.clockHand) ≠ none
    split
    · exact nofun
    · rename_i hne
      exact h.handed hne

/-- `claim_frame_for_reuse` fails on a pool that stays sound, or it hands out a frame of its own. -/
theorem Sound.claim (hc : pool.claimFrameForReuse = some (r, pool')) :
    pool'.Sound ∧ ∀ f, r = .ok f → pool'.Owned f := by
  unfold claimFrameForReuse at hc
  split at hc
  · rename_i f rest hfree
    split_ifs at hc
    cases hc
    have how : (({ pool with free := rest }.addToLruHead f).wLatch f).Owned f :=
      (h.takeFree hfree).keeps (keeps_wLatch _ _) rfl
    refine ⟨how.sound, ?_⟩
    rintro _ ⟨⟩
    exact how
  · rename_i hfree
    obtain ⟨hs, hk, hmem⟩ := h.findVictimPage hfree
    split at hc
    · rename_i pool1 hv
      cases hc
      rw [hv] at hs
      exact ⟨hs, nofun⟩
    · rename_i f pool1 hv
      cases hc
      rw [hv] at hs hk hmem
      have hw := keeps_wLatch pool1 f
      have hf : f ∈ (pool1.wLatch f).lru := by
        rw [hw.lru, hk.lru]
        exact hmem f rfl
      rw [← hw.pageNo f]
      obtain ⟨hkb, hhand⟩ := keeps_writeBack
        ((((pool1.wLatch f).removeFromLruList f).eraseMap ((pool1.wLatch f).frames f).pageNo
          ).addToLruHead f) ((pool1.wLatch f).frames f).pageNo f
      have how := ((hs.keeps hw rfl).relink hf).keeps hkb hhand
      refine ⟨how.sound, ?_⟩
      rintro _ ⟨⟩
      exact how

omit h in
/-- The end of a load: the frame gets the number, the image and the mapping. -/
theorem Owned.load (h : pool.Owned f) (hq : pool.pageMap q = none) (image : α) :
    (((pool.fill f q image).setReferenced f).insertMap q f).Sound := by
  have hset := keeps_setReferenced (pool.fill f q image) f
  refine ((h.modifyFrame _).keeps hset rfl).insertMap hq ?_
  rw [hset.pageNo, fill, modifyFrame_self]

theorem Sound.readPageInternal {writeLatch ioFails : Bool}
    (hc : pool.readPageInternal ops q writeLatch ioFails = some (r, pool')) : pool'.Sound := by
  unfold FramePool.readPageInternal at hc
  split at hc
  · obtain ⟨pool1, h1, hr⟩ := map_eq_some_iff.1 hc
    cases hr
    obtain ⟨hk, hh⟩ := keeps_latchCached h1
    exact h.keeps hk hh
  · rename_i hmiss
    obtain ⟨⟨r1, pool1⟩, hclaim, hr⟩ := map_eq_some_iff.1 hc
    obtain ⟨hs, how⟩ := h.claim hclaim
    have hunmapped := (claimFrameForReuse_spec h.linked hclaim).unmapped q (h.unmapped hmiss)
    cases r1 with
    | error e =>
      cases hr
      exact hs
    | ok f =>
      have hload := (how f rfl).load hunmapped (pool1.disk q)
      simp only at hr
      split_ifs at hr
      · cases hr
        exact hs.keeps (keeps_wUnlatch pool1 f) rfl
      · cases hr
        exact hload
      · cases hr
        exact hload.keeps (keeps_wToRLatch _ f) rfl
      · cases hr
        exact ((how f rfl).modifyFrame _).sound.keeps (keeps_wUnlatch _ f) rfl

theorem Sound.bufPageCp {pageData : α} {r : Except PoolError (Option Nat)}
    (hc : pool.bufPageCp ops q pageData = some (r, pool')) : pool'.Sound := by
  unfold FramePool.bufPageCp at hc
  split at hc
  · cases hc
    exact h
  · rename_i hmiss
    obtain ⟨⟨r1, pool1⟩, hclaim, hr⟩ := map_eq_some_iff.1 hc
    obtain ⟨hs, how⟩ := h.claim hclaim
    have hunmapped := (claimFrameForReuse_spec h.linked hclaim).unmapped q hmiss
    cases r1 with
    | error e =>
      cases hr
      exact hs
    | ok f =>
      simp only at hr
      split_ifs at hr
      · cases hr
        exact ((how f rfl).load hunmapped pageData).keeps (keeps_wUnlatch _ f) rfl
      · cases hr
        exact ((how f rfl).modifyFrame _).sound

theorem Sound.bufPageNew (hc : pool.bufPageNew ops q = some (r, pool')) : pool'.Sound := by
  unfold FramePool.bufPageNew at hc
  split at hc
  · obtain ⟨pool1, h1, hr⟩ := map_eq_some_iff.1 hc
    cases hr
    obtain ⟨hk, hh⟩ := keeps_latchCached h1
    exact h.keeps hk hh
  · rename_i hmiss
    obtain ⟨⟨r1, pool1⟩, hclaim, hr⟩ := map_eq_some_iff.1 hc
    obtain ⟨hs, how⟩ := h.claim hclaim
    have hunmapped := (claimFrameForReuse_spec h.linked hclaim).unmapped q (h.unmapped hmiss)
    cases r1 with
    | error e =>
      cases hr
      exact hs
    | ok f =>
      cases hr
      refine ((how f rfl).modifyFrame _).insertMap hunmapped ?_
      rw [modifyFrame_self]

theorem Sound.retirePage (q : PageNo) : (pool.retirePage q).2.Sound := by
  unfold FramePool.retirePage
  split
  · exact h
  · rename_i f hf
    obtain ⟨hmem, hno⟩ := h.placed q f hf
    split_ifs
    · exact h
    · have hl := h.linked.retire hmem
      have hs : ({ (pool.eraseMap q).removeFromLruList f with
          free := pool.free ++ [f] } : FramePool α).Sound := by
        refine ⟨⟨hl.lru, hl.free, hl.disjoint, hl.hand⟩, fun p g hp => ?_, fun _ => ?_⟩
        · have hgone : update pool.pageMap q none p = some g := hp
          by_cases hpq : p = q
          · rw [hpq, update_self] at hgone
            cases hgone
          · rw [update_of_ne hpq] at hgone
            obtain ⟨hg, hgno⟩ := h.placed p g hgone
            have hgf : g ≠ f := fun he => hpq (by rw [← hgno, he, hno])
            exact ⟨(mem_erase_of_ne hgf).2 hg, hgno⟩
        · have hhand := h.handed (ne_nil_of_mem hmem)
          show (if pool.clockHand = some f then some (pool.advance f) else pool.clockHand) ≠ none
          split
          · exact nofun
          · exact hhand
      exact hs.keeps (keeps_modifyFrame _ f (g := fun fr =>
        { fr with dirty := false, referenced := false }) fun _ => rfl) rfl

end

/-- Every call, failed or not, leaves a sound pool. -/
theorem Sound.call (h : pool.Sound) {c : PoolCall α} {e : Option PoolError}
    (hc : pool.call ops c = some (e, pool')) : pool'.Sound := by
  cases c with
  | bufPageRead q ioFails =>
    obtain ⟨r, hr, he⟩ := map_eq_some_iff.1 hc
    cases he
    exact h.readPageInternal hr
  | bufPageReadForSlotWrite q ioFails =>
    obtain ⟨r, hr, he⟩ := map_eq_some_iff.1 hc
    cases he
    exact h.readPageInternal hr
  | bufPageNew q =>
    obtain ⟨r, hr, he⟩ := map_eq_some_iff.1 hc
    cases he
    exact h.bufPageNew hr
  | bufPageCp q pageData =>
    obtain ⟨r, hr, he⟩ := map_eq_some_iff.1 hc
    cases he
    exact h.bufPageCp hr
  | retirePage q =>
    cases hc
    exact h.retirePage q
  | hold frames disk =>
    cases hc
    exact h.keeps ⟨rfl, rfl, rfl, fun _ => rfl⟩ rfl

theorem start_sound (n : Nat) (blank : α) (disk : PageNo → α) : (start n blank disk).Sound :=
  ⟨start_linked n blank disk, nofun, fun h => absurd rfl h⟩

/-! ## The victim -/

/-- Only reference bits have changed. -/
def Swept (pool pool' : FramePool α) : Prop :=
  ∀ f, ∃ b, pool'.frames f = { pool.frames f with referenced := b }

theorem Swept.refl (pool : FramePool α) : pool.Swept pool := fun _ => ⟨_, rfl⟩

theorem Swept.trans {pool'' : FramePool α} (h : pool.Swept pool') (h' : pool'.Swept pool'') :
    pool.Swept pool'' := by
  intro f
  obtain ⟨b, hb⟩ := h f
  obtain ⟨b', hb'⟩ := h' f
  exact ⟨b', by rw [hb', hb]⟩

end FramePool

end BwGraph
