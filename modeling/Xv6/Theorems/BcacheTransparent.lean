import Mathlib.Algebra.BigOperators.Group.Finset.Basic
import Mathlib.Algebra.Order.BigOperators.Group.Finset
import Mathlib.Data.Fintype.BigOperators
import Xv6.Bcache
import Xv6.Lib.Writes

/-! The buffer cache is transparent: a block has at most one buffer, and `bread` returns what was last written
    to the block. A buffer is given to another block only when no process has a pointer to it and its
    contents are on the disk. -/

namespace Xv6.Bcache
open Lib Log

section Invariant
variable {ι : Type} {s s' : System ι} {last : Disk} {p q : ι} {r : Ref} {x : Buf ι}

def Buf.Carries (x : Buf ι) (b : Nat) : Prop := x.dev = rootdev ∧ x.blockno = b

/-- The number of pointers to the buffer `i` that the processes have. -/
def System.uses [Fintype ι] (s : System ι) (i : Fin nbuf) : Nat := ∑ p, (s.proc p).refs.countP (·.buf = i)

/-- A process that has a pointer to a buffer, and perhaps its lock. -/
structure System.Holds (s : System ι) (p : ι) (r : Ref) : Prop where
  carries : (s.buf r.buf).Carries r.blockno
  lock : r.hold = .locked ∨ r.hold = .filled → (s.buf r.buf).lock = some p
  valid : r.hold = .filled → (s.buf r.buf).valid = true

theorem System.ref_some {b : Nat} (h : s.ref p b = some r) : r ∈ (s.proc p).refs ∧ r.blockno = b :=
  ⟨List.mem_of_find?_eq_some h, by simpa using List.find?_some h⟩

theorem System.Holds.update [DecidableEq ι] {i : Fin nbuf} (hr : s.Holds p r)
    (hbuf : s'.buf = Function.update s.buf i x) (hkey : x.dev = (s.buf i).dev ∧ x.blockno = (s.buf i).blockno)
    (hlock : x.lock = (s.buf i).lock) (hvalid : (s.buf i).valid = true → x.valid = true) : s'.Holds p r := by
  rcases eq_or_ne r.buf i with heq | hne
  · have hx : s'.buf r.buf = x := by rw [hbuf, heq, Function.update_self]
    refine ⟨?_, fun hl => ?_, fun hf => ?_⟩
    · rw [hx, Buf.Carries, hkey.1, hkey.2, ← heq]
      exact hr.carries
    · rw [hx, hlock, ← heq]
      exact hr.lock hl
    · rw [hx]
      exact hvalid (heq ▸ hr.valid hf)
  · have hx : s'.buf r.buf = s.buf r.buf := by rw [hbuf, Function.update_of_ne hne]
    exact ⟨hx ▸ hr.carries, hx ▸ hr.lock, hx ▸ hr.valid⟩

/-- What holds in every state, where `last` has the contents last written to each block. -/
structure System.Inv [Fintype ι] (last : Disk) (s : System ι) : Prop where
  order : ∀ i, i ∈ s.order
  unique : ∀ i j b, (s.buf i).Carries b → (s.buf j).Carries b → i = j
  refcnt : ∀ i, (s.buf i).refcnt = s.uses i
  holds : ∀ p, ∀ r ∈ (s.proc p).refs, s.Holds p r
  finish : ∀ p f, (s.proc p).finish = some f → ∃ r ∈ (s.proc p).refs, r.buf = f.buf ∧ r.hold = .filled
  dirty : ∀ i, (s.buf i).dirty = true → (s.buf i).valid = true
  disk : ∀ b, (∀ i, (s.buf i).Carries b → (s.buf i).dirty = false) → s.disk b = last b
  /-- A buffer has the contents last written, unless a process has changed them and not yet written them. -/
  data : ∀ i b, (s.buf i).Carries b → (s.buf i).valid = true →
    (∀ p f, (s.proc p).finish = some f → f.buf ≠ i) → (s.buf i).data = last b

variable [Fintype ι]

theorem System.Inv.pos (h : s.Inv last) (hr : r ∈ (s.proc p).refs) : 0 < (s.buf r.buf).refcnt := by
  rw [h.refcnt]
  refine Finset.sum_pos' (fun _ _ => Nat.zero_le _) ⟨p, Finset.mem_univ p, ?_⟩
  exact List.countP_pos_iff.mpr ⟨r, hr, by simp⟩

theorem System.Inv.buf_eq (h : s.Inv last) {r' : Ref} (hr : r ∈ (s.proc p).refs) (hr' : r' ∈ (s.proc q).refs) :
    r.buf = r'.buf ↔ r.blockno = r'.blockno := by
  have hc := (h.holds p r hr).carries
  have hc' := (h.holds q r' hr').carries
  refine ⟨fun heq => ?_, fun heq => h.unique _ _ _ hc (heq ▸ hc')⟩
  rw [← hc.2, ← hc'.2, heq]

theorem System.Inv.congr (h : s.Inv last) (hbuf : s'.buf = s.buf) (horder : s'.order = s.order)
    (hdisk : s'.disk = s.disk)
    (hproc : ∀ q, (s'.proc q).refs = (s.proc q).refs ∧ (s'.proc q).finish = (s.proc q).finish) : s'.Inv last where
  order := horder ▸ h.order
  unique := hbuf ▸ h.unique
  refcnt j := by
    rw [hbuf, h.refcnt, System.uses, System.uses]
    exact Finset.sum_congr rfl fun q _ => by rw [(hproc q).1]
  holds q r hr := by
    obtain ⟨hc, hl, hv⟩ := h.holds q r ((hproc q).1 ▸ hr)
    exact ⟨hbuf ▸ hc, hbuf ▸ hl, hbuf ▸ hv⟩
  finish q f hf := by
    rw [(hproc q).1]
    exact h.finish q f ((hproc q).2 ▸ hf)
  dirty := hbuf ▸ h.dirty
  disk b hb := by
    rw [hdisk]
    exact h.disk b (hbuf ▸ hb)
  data j b hj hv hf := by
    rw [hbuf] at hj hv ⊢
    exact h.data j b hj hv fun q f hqf => hf q f ((hproc q).2 ▸ hqf)

theorem System.Inv.holds_map (h : s.Inv last) {hold : Hold}
    (hr : r ∈ (s.proc p).refs) (hbuf : s'.buf = Function.update s.buf r.buf x)
    (hkey : x.dev = (s.buf r.buf).dev ∧ x.blockno = (s.buf r.buf).blockno)
    (hlock : hold = .locked ∨ hold = .filled → x.lock = some p) (hvalid : hold = .filled → x.valid = true) :
    ∀ r' ∈ (s.proc p).refs.map fun r' => if r'.blockno = r.blockno then { r' with hold } else r', s'.Holds p r' := by
  intro r' hr'
  obtain ⟨r₀, hr₀, rfl⟩ := List.mem_map.mp hr'
  have hr₀' := h.holds p r₀ hr₀
  split
  · rename_i hb
    have hi : r₀.buf = r.buf := (h.buf_eq hr₀ hr).mpr hb
    have hx : s'.buf r₀.buf = x := by rw [hbuf, hi, Function.update_self]
    refine ⟨?_, fun hl => ?_, fun hf => ?_⟩
    · rw [hx, Buf.Carries, hkey.1, hkey.2, ← hi]
      exact hr₀'.carries
    · rw [hx]
      exact hlock hl
    · rw [hx]
      exact hvalid hf
  · rename_i hb
    have hx : s'.buf r₀.buf = s.buf r₀.buf := by
      rw [hbuf, Function.update_of_ne (mt (h.buf_eq hr₀ hr).mp hb)]
    exact ⟨hx ▸ hr₀'.carries, hx ▸ hr₀'.lock, hx ▸ hr₀'.valid⟩

end Invariant

/-! ### Changes of one buffer and one process -/

section Touch
variable {ι : Type} [DecidableEq ι] {s s' : System ι} {last last' : Disk} {p q : ι} {i : Fin nbuf} {x : Buf ι}
  {y : Process}

/-- A change of a buffer `i` that keeps its block, by a process `p`, and of the block on the disk. -/
structure System.Touch (last last' : Disk) (s s' : System ι) (p : ι) (i : Fin nbuf) (x : Buf ι) (y : Process) :
    Prop where
  buf : s'.buf = Function.update s.buf i x
  proc : s'.proc = Function.update s.proc p y
  order : ∀ j, j ∈ s'.order
  dev : (s.buf i).dev = rootdev
  key : x.dev = (s.buf i).dev ∧ x.blockno = (s.buf i).blockno
  refcnt : ∀ j, (s'.buf j).refcnt + (s.proc p).refs.countP (·.buf = j) =
    (s.buf j).refcnt + y.refs.countP (·.buf = j)
  lock : x.lock = (s.buf i).lock ∨ (s.buf i).lock = none ∨ (s.buf i).lock = some p
  valid : (s.buf i).valid = true → x.valid = true
  holds : ∀ r ∈ y.refs, s'.Holds p r
  finish : ∀ f, y.finish = some f → ∃ r ∈ y.refs, r.buf = f.buf ∧ r.hold = .filled
  finished : ∀ f, (s.proc p).finish = some f → f.buf = i
  dirty : x.dirty = true → x.valid = true
  others : ∀ b, b ≠ (s.buf i).blockno → s'.disk b = s.disk b ∧ last' b = last b
  disk : x.dirty = false → s'.disk (s.buf i).blockno = last' (s.buf i).blockno
  data : x.valid = true → (∀ q f, (s'.proc q).finish = some f → f.buf ≠ i) → x.data = last' (s.buf i).blockno

theorem System.Touch.carries (t : System.Touch last last' s s' p i x y)
    (j : Fin nbuf) (b : Nat) : (s'.buf j).Carries b ↔ (s.buf j).Carries b := by
  rw [t.buf]
  rcases eq_or_ne j i with rfl | hne
  · simp only [Function.update_self, Buf.Carries, t.key.1, t.key.2]
  · rw [Function.update_of_ne hne]

variable [Fintype ι]

theorem System.uses_update (hproc : s'.proc = Function.update s.proc p y) (i : Fin nbuf) :
    s'.uses i + (s.proc p).refs.countP (·.buf = i) = s.uses i + y.refs.countP (·.buf = i) := by
  have hnew : s'.uses i =
      ∑ q, Function.update (fun q => (s.proc q).refs.countP (·.buf = i)) p (y.refs.countP (·.buf = i)) q := by
    refine Finset.sum_congr rfl fun q _ => ?_
    rw [hproc]
    rcases eq_or_ne q p with rfl | hne
    · simp
    · simp [hne]
  rw [hnew, Finset.sum_update_of_mem (Finset.mem_univ p), Finset.sdiff_singleton_eq_erase]
  have hold := Finset.add_sum_erase Finset.univ (fun q => (s.proc q).refs.countP (·.buf = i)) (Finset.mem_univ p)
  simp only [System.uses]
  omega

theorem System.Inv.touch (h : s.Inv last)
    (t : System.Touch last last' s s' p i x y) : s'.Inv last' where
  order := t.order
  unique j k b hj hk := h.unique j k b ((t.carries j b).mp hj) ((t.carries k b).mp hk)
  refcnt j := by
    have huses := System.uses_update t.proc j
    have hcnt := t.refcnt j
    have hold := h.refcnt j
    omega
  holds q r hr := by
    rcases eq_or_ne q p with rfl | hq
    · exact t.holds r (by rwa [t.proc, Function.update_self] at hr)
    · rw [t.proc, Function.update_of_ne hq] at hr
      have hr' := h.holds q r hr
      refine ⟨(t.carries _ _).mpr hr'.carries, fun hl => ?_, fun hf => ?_⟩
      · rw [t.buf]
        rcases eq_or_ne r.buf i with rfl | hne
        · rw [Function.update_self]
          -- Another process has the lock only if it is not taken or given back in this step.
          have hlock := hr'.lock hl
          rcases t.lock with heq | hnone | hsome
          · rw [heq, hlock]
          · rw [hlock] at hnone
            cases hnone
          · rw [hlock] at hsome
            exact absurd (Option.some.inj hsome) hq
        · rw [Function.update_of_ne hne]
          exact hr'.lock hl
      · rw [t.buf]
        rcases eq_or_ne r.buf i with rfl | hne
        · rw [Function.update_self]
          exact t.valid (hr'.valid hf)
        · rw [Function.update_of_ne hne]
          exact hr'.valid hf
  finish q f hf := by
    rw [t.proc] at hf ⊢
    rcases eq_or_ne q p with rfl | hq
    · rw [Function.update_self] at hf ⊢
      exact t.finish f hf
    · rw [Function.update_of_ne hq] at hf ⊢
      exact h.finish q f hf
  dirty j := by
    rw [t.buf]
    rcases eq_or_ne j i with rfl | hne
    · rw [Function.update_self]
      exact t.dirty
    · rw [Function.update_of_ne hne]
      exact h.dirty j
  disk b hb := by
    rcases eq_or_ne b (s.buf i).blockno with rfl | hne
    · have hi := hb i ((t.carries i _).mpr ⟨t.dev, rfl⟩)
      rw [t.buf, Function.update_self] at hi
      exact t.disk hi
    · rw [(t.others b hne).1, (t.others b hne).2]
      refine h.disk b fun j hj => ?_
      have hji : j ≠ i := by
        rintro rfl
        exact hne hj.2.symm
      have hclean := hb j ((t.carries j b).mpr hj)
      rwa [t.buf, Function.update_of_ne hji] at hclean
  data j b hj hv hf := by
    have hj' := (t.carries j b).mp hj
    rcases eq_or_ne j i with rfl | hne
    · obtain rfl := hj'.2
      rw [t.buf, Function.update_self] at hv ⊢
      exact t.data hv hf
    · rw [t.buf, Function.update_of_ne hne] at hv ⊢
      have hb : b ≠ (s.buf i).blockno := by
        rintro rfl
        exact hne (h.unique j i _ hj' ⟨t.dev, rfl⟩)
      rw [(t.others b hb).2]
      refine h.data j b hj' hv fun q f hqf hbuf => ?_
      rcases eq_or_ne q p with rfl | hq
      · exact hne (hbuf ▸ t.finished f hqf)
      · exact hf q f (by rwa [t.proc, Function.update_of_ne hq]) hbuf

end Touch

/-! ### The steps -/

section Steps
variable {ι : Type} [DecidableEq ι] {s s' : System ι} {last : Disk} {p : ι} {i : Fin nbuf} {b : Nat} {r : Ref} {y : Process}
  {f : Finish} {A : Area}

theorem countP_eraseP_find {refs : List Ref} {P : Ref → Bool} (h : refs.find? P = some r) (Q : Ref → Bool) :
    refs.countP Q = (refs.eraseP P).countP Q + if Q r = true then 1 else 0 := by
  obtain ⟨hP, as, bs, rfl, has⟩ := List.find?_eq_some_iff_append.mp h
  rw [List.eraseP_append_right _ (by simpa using has), List.eraseP_cons_of_pos hP]
  simp only [List.countP_append, List.countP_cons]
  omega

theorem countP_hold (refs : List Ref) (b : Nat) (hold : Hold) (j : Fin nbuf) :
    (refs.map fun r => if r.blockno = b then { r with hold } else r).countP (·.buf = j) =
      refs.countP (·.buf = j) := by
  rw [List.countP_map]
  refine congrArg (List.countP · refs) (funext fun r => ?_)
  simp only [Function.comp]
  split <;> rfl

variable [Fintype ι]

theorem System.Inv.handle {n : Nat} {lock : Option ι} (h : s.Inv last)
    (hbuf : s'.buf = Function.update s.buf i { s.buf i with refcnt := n, lock := lock })
    (hproc : s'.proc = Function.update s.proc p y) (horder : ∀ j, j ∈ s'.order) (hdisk : s'.disk = s.disk)
    (hdev : (s.buf i).dev = rootdev) (hfin : y.finish = none) (hfin' : (s.proc p).finish = none)
    (hrefcnt : n + (s.proc p).refs.countP (·.buf = i) = (s.buf i).refcnt + y.refs.countP (·.buf = i))
    (hrefcnt' : ∀ j, j ≠ i → (s.proc p).refs.countP (·.buf = j) = y.refs.countP (·.buf = j))
    (hlock : lock = (s.buf i).lock ∨ (s.buf i).lock = none ∨ (s.buf i).lock = some p)
    (hholds : ∀ r ∈ y.refs, s'.Holds p r) : s'.Inv last := by
  refine h.touch
    { buf := hbuf, proc := hproc, order := horder, dev := hdev, key := ⟨rfl, rfl⟩, lock := hlock, valid := id
      refcnt := fun j => ?_, holds := hholds, finish := by simp [hfin], finished := by simp [hfin']
      dirty := h.dirty i, others := fun _ _ => ⟨by rw [hdisk], rfl⟩, disk := fun hd => ?_, data := fun hv hf => ?_ }
  · rcases eq_or_ne j i with rfl | hne
    · rw [hbuf, Function.update_self]
      exact hrefcnt
    · rw [hbuf, Function.update_of_ne hne, hrefcnt' j hne]
  · rw [hdisk]
    refine h.disk _ fun j hj => ?_
    rw [h.unique j i _ hj ⟨hdev, rfl⟩]
    exact hd
  · refine h.data i _ ⟨hdev, rfl⟩ hv fun q f hqf => ?_
    rcases eq_or_ne q p with rfl | hq
    · rw [hfin'] at hqf
      cases hqf
    · exact hf q f (by rwa [hproc, Function.update_of_ne hq])

theorem System.Inv.recycle {x : Buf ι} (h : s.Inv last) (hbuf : s'.buf = Function.update s.buf i x)
    (hproc : s'.proc = Function.update s.proc p { s.proc p with refs := ⟨b, i, .waiting⟩ :: (s.proc p).refs })
    (horder : s'.order = s.order) (hdisk : s'.disk = s.disk) (hx : x.Carries b)
    (hnew : x.valid = false ∧ x.dirty = false ∧ x.refcnt = 1) (hfind : s.find b = none)
    (hrefcnt : (s.buf i).refcnt = 0) (hdirty : (s.buf i).dirty = false) : s'.Inv last := by
  have hfree : ∀ q, ∀ r ∈ (s.proc q).refs, r.buf ≠ i := by
    intro q r hr heq
    have := heq ▸ h.pos hr
    omega
  have hnone : ∀ j, ¬(s.buf j).Carries b := fun j hj => by
    have := List.find?_eq_none.mp hfind j (h.order j)
    simp only [decide_eq_true_eq] at this
    exact this hj
  have hself : s'.buf i = x := by rw [hbuf, Function.update_self]
  have hother : ∀ {j}, j ≠ i → s'.buf j = s.buf j := fun hne => by rw [hbuf, Function.update_of_ne hne]
  have hp : s'.proc p = { s.proc p with refs := ⟨b, i, .waiting⟩ :: (s.proc p).refs } := by
    rw [hproc, Function.update_self]
  have hq : ∀ {q}, q ≠ p → s'.proc q = s.proc q := fun hne => by rw [hproc, Function.update_of_ne hne]
  have hfin : ∀ q, (s'.proc q).finish = (s.proc q).finish := fun q => by
    rcases eq_or_ne q p with rfl | hne
    · rw [hp]
    · rw [hq hne]
  have hold : ∀ q, ∀ r ∈ (s.proc q).refs, s'.Holds q r := fun q r hr => by
    obtain ⟨hc, hl, hv⟩ := h.holds q r hr
    have hr' := hother (hfree q r hr)
    exact ⟨hr' ▸ hc, hr' ▸ hl, hr' ▸ hv⟩
  refine ⟨horder ▸ h.order, fun j k c hj hk => ?_, fun j => ?_, fun q r hr => ?_, fun q f hf => ?_, fun j hj => ?_,
    fun c hc => ?_, fun j c hj hv hf => ?_⟩
  · rcases eq_or_ne j i with hji | hji <;> rcases eq_or_ne k i with hki | hki
    · rw [hji, hki]
    · rw [hji, hself] at hj
      rw [hother hki, ← hj.2, hx.2] at hk
      exact absurd hk (hnone k)
    · rw [hki, hself] at hk
      rw [hother hji, ← hk.2, hx.2] at hj
      exact absurd hj (hnone j)
    · rw [hother hji] at hj
      rw [hother hki] at hk
      exact h.unique j k c hj hk
  · have huses := System.uses_update hproc j
    have hcnt := h.refcnt j
    simp only [List.countP_cons, decide_eq_true_eq] at huses
    rcases eq_or_ne j i with rfl | hji
    · rw [hself, hnew.2.2]
      simp only [if_true] at huses
      omega
    · rw [hother hji]
      simp only [Ne.symm hji, if_false] at huses
      omega
  · rcases eq_or_ne q p with rfl | hne
    · rw [hp] at hr
      rcases List.mem_cons.mp hr with rfl | hr
      · exact ⟨hself ▸ hx, by simp, by simp⟩
      · exact hold q r hr
    · exact hold q r (hq hne ▸ hr)
  · obtain ⟨r, hr, hrf⟩ := h.finish q f (hfin q ▸ hf)
    refine ⟨r, ?_, hrf⟩
    rcases eq_or_ne q p with rfl | hne
    · rw [hp]
      exact List.mem_cons_of_mem _ hr
    · rwa [hq hne]
  · rcases eq_or_ne j i with rfl | hji
    · rw [hself, hnew.2.1] at hj
      cases hj
    · rw [hother hji] at hj ⊢
      exact h.dirty j hj
  · -- The old block of the buffer is on the disk, and so is the new one, which had no buffer.
    rw [hdisk]
    refine h.disk c fun j hj => ?_
    rcases eq_or_ne j i with rfl | hji
    · exact hdirty
    · rw [← hother hji] at hj ⊢
      exact hc j hj
  · rcases eq_or_ne j i with rfl | hji
    · rw [hself, hnew.1] at hv
      cases hv
    · rw [hother hji] at hj hv ⊢
      exact h.data j c hj hv fun q f hqf => hf q f (hfin q ▸ hqf)

theorem System.Inv.bget (h : s.Inv last) (hfin : (s.proc p).finish = none) : (s.bget p b).Inv last := by
  simp only [System.bget]
  split
  · rename_i i hfind
    have hc : (s.buf i).dev = rootdev ∧ (s.buf i).blockno = b := by simpa using List.find?_some hfind
    refine h.handle (i := i) (p := p) rfl rfl h.order rfl hc.1 hfin hfin ?_ (fun j hne => ?_) (.inl rfl) fun r hr => ?_
    · simp only [List.countP_cons, decide_true, if_true]
      omega
    · simp [Ne.symm hne]
    · rcases List.mem_cons.mp hr with rfl | hr
      · exact ⟨by simpa [System.setRefs, System.setProc, System.setBuf, Buf.Carries] using hc, by simp, by simp⟩
      · exact (h.holds p r hr).update rfl ⟨rfl, rfl⟩ rfl id
  · rename_i hfind
    split
    · rename_i i hvictim
      have hfree := List.find?_some hvictim
      simp only [decide_eq_true_eq] at hfree
      exact h.recycle rfl rfl rfl rfl ⟨rfl, rfl⟩ ⟨rfl, rfl, rfl⟩ hfind hfree.1 hfree.2
    · exact h.congr rfl rfl rfl fun _ => ⟨rfl, rfl⟩

theorem System.Inv.acquiresleep (h : s.Inv last) (hfin : (s.proc p).finish = none)
    (hr : r ∈ (s.proc p).refs) (hlock : (s.buf r.buf).lock = none) :
    ((s.setBuf r.buf { s.buf r.buf with lock := some p }).setHold p r.blockno .locked).Inv last := by
  have hc := (h.holds p r hr).carries
  refine h.handle (i := r.buf) (p := p) rfl rfl h.order rfl hc.1 hfin hfin ?_ (fun j hne => ?_) (.inr (.inl hlock)) ?_
  · exact congrArg _ (countP_hold ..).symm
  · exact (countP_hold ..).symm
  · exact h.holds_map hr rfl ⟨rfl, rfl⟩ (fun _ => rfl) (by simp)

theorem System.Inv.releasesleep (h : s.Inv last) (hfin : (s.proc p).finish = none)
    (hr : r ∈ (s.proc p).refs) (hhold : r.hold = .filled) :
    ((s.setBuf r.buf { s.buf r.buf with lock := none }).setHold p r.blockno .released).Inv last := by
  have hc := (h.holds p r hr).carries
  have hlock := (h.holds p r hr).lock (.inr hhold)
  refine h.handle (i := r.buf) (p := p) rfl rfl h.order rfl hc.1 hfin hfin ?_ (fun j hne => ?_) (.inr (.inr hlock)) ?_
  · exact congrArg _ (countP_hold ..).symm
  · exact (countP_hold ..).symm
  · exact h.holds_map hr rfl ⟨rfl, rfl⟩ (by simp) (by simp)

theorem System.Inv.unref (h : s.Inv last) (hfin : (s.proc p).finish = none) (hr : s.ref p b = some r) :
    (s.unref p r).Inv last := by
  obtain ⟨hmem, rfl⟩ := System.ref_some hr
  have hc := (h.holds p r hmem).carries
  have hpos := h.pos hmem
  have hcount := fun j => countP_eraseP_find hr (·.buf = j)
  have hself := hcount r.buf
  simp only [decide_true, if_true] at hself
  have horder : ∀ j, j ∈ (s.unref p r).order := by
    intro j
    simp only [System.unref]
    split
    · rcases eq_or_ne j r.buf with rfl | hne
      · exact List.mem_cons_self
      · exact List.mem_cons_of_mem _ ((List.mem_erase_of_ne hne).mpr (h.order j))
    · exact h.order j
  have hbuf : (s.unref p r).buf = Function.update s.buf r.buf
      { s.buf r.buf with refcnt := (s.buf r.buf).refcnt - 1, lock := (s.buf r.buf).lock } := by
    simp only [System.unref]
    split <;> rfl
  refine h.handle (i := r.buf) (p := p) (y := { s.proc p with
    refs := (s.proc p).refs.eraseP (·.blockno = r.blockno) }) hbuf ?_ horder ?_ hc.1 hfin hfin ?_ (fun j hne => ?_)
    (.inl rfl) fun r' hr' => ?_
  · simp only [System.unref]
    split <;> rfl
  · simp only [System.unref]
    split <;> rfl
  · simp only
    omega
  · have := hcount j
    simpa [Ne.symm hne] using this
  · exact (h.holds p r' (List.mem_of_mem_eraseP hr')).update hbuf ⟨rfl, rfl⟩ rfl id

theorem System.Inv.iderw (h : s.Inv last) (hfin : (s.proc p).finish = none) (hr : r ∈ (s.proc p).refs)
    (hhold : r.hold = .locked) :
    (s.iderw p r).Inv last ∧
      ∀ j, ((s.iderw p r).buf j).Carries r.blockno → ((s.iderw p r).buf j).data = last r.blockno := by
  obtain ⟨hc, hlock, -⟩ := h.holds p r hr
  -- A process that has changed the buffer and not written it would have its lock.
  have hfree : ∀ q f, (s.proc q).finish = some f → f.buf ≠ r.buf := fun q f hf heq => by
    obtain ⟨r', hr', hbuf, hhold'⟩ := h.finish q f hf
    have hlock' := (h.holds q r' hr').lock (.inr hhold')
    rw [hbuf, heq, hlock (.inl hhold)] at hlock'
    obtain rfl := Option.some.inj hlock'
    rw [hfin] at hf
    cases hf
  have hdata : (s.buf r.buf).valid = true → (s.buf r.buf).data = last r.blockno := fun hv =>
    h.data _ _ hc hv hfree
  have hdisk : (s.buf r.buf).dirty = false → s.disk r.blockno = last r.blockno := fun hd =>
    h.disk _ fun j hj => by rw [h.unique j _ _ hj hc, hd]
  have hx : ∃ v, v = last r.blockno ∧
      (s.iderw p r).buf = Function.update s.buf r.buf { s.buf r.buf with valid := true, data := v } := by
    by_cases hv : (s.buf r.buf).valid = true
    · refine ⟨(s.buf r.buf).data, hdata hv, ?_⟩
      have hsame : ({ s.buf r.buf with valid := true, data := (s.buf r.buf).data } : Buf ι) = s.buf r.buf := by rw [← hv]
      rw [hsame, Function.update_eq_self]
      simp only [System.iderw, hv, if_true]
      rfl
    · have hd : (s.buf r.buf).dirty = false := Bool.eq_false_iff.mpr (mt (h.dirty _) hv)
      refine ⟨s.disk (s.buf r.buf).blockno, hc.2 ▸ hdisk hd, ?_⟩
      simp only [System.iderw, hv]
      rfl
  obtain ⟨v, hv, hbuf⟩ := hx
  have hproc : (s.iderw p r).proc = Function.update s.proc p { s.proc p with
      refs := (s.proc p).refs.map fun r' => if r'.blockno = r.blockno then { r' with hold := .filled } else r' } := by
    simp only [System.iderw]
    split <;> rfl
  refine ⟨h.touch
    { buf := hbuf, proc := hproc, order := ?_, dev := hc.1, key := ⟨rfl, rfl⟩, lock := .inl rfl, valid := fun _ => rfl
      refcnt := fun j => ?_, holds := h.holds_map hr hbuf ⟨rfl, rfl⟩ (fun _ => hlock (.inl hhold)) fun _ => rfl
      finish := by simp [hfin], finished := by simp [hfin], dirty := fun _ => rfl, others := fun _ _ => ⟨?_, rfl⟩
      disk := fun hd => ?_, data := fun _ _ => by rw [hc.2, hv] }, fun j hj => ?_⟩
  · simp only [System.iderw]
    split <;> exact h.order
  · rw [hbuf, countP_hold]
    rcases eq_or_ne j r.buf with rfl | hne
    · rw [Function.update_self]
    · rw [Function.update_of_ne hne]
  · simp only [System.iderw]
    split <;> rfl
  · rw [hc.2, ← hdisk hd]
    simp only [System.iderw]
    split <;> rfl
  · rw [hbuf] at hj ⊢
    rcases eq_or_ne j r.buf with rfl | hne
    · rw [Function.update_self, hv]
    · rw [Function.update_of_ne hne] at hj
      exact absurd (h.unique _ _ _ hj hc) hne

theorem System.Inv.modify {v : Block} (h : s.Inv last) (hfin : (s.proc p).finish = none)
    (hr : r ∈ (s.proc p).refs) (hhold : r.hold = .filled) (hf : f.buf = r.buf) :
    ((s.setBuf r.buf { s.buf r.buf with data := v }).setProc p { s.proc p with finish := some f }).Inv last := by
  have hc := (h.holds p r hr).carries
  refine h.touch (i := r.buf) (p := p)
    { buf := rfl, proc := rfl, order := h.order, dev := hc.1, key := ⟨rfl, rfl⟩, lock := .inl rfl, valid := id
      refcnt := fun j => ?_, holds := fun r' hr' => (h.holds p r' hr').update rfl ⟨rfl, rfl⟩ rfl id
      finish := fun f' hf' => ⟨r, hr, by rw [← Option.some.inj hf', hf], hhold⟩, finished := by simp [hfin]
      dirty := h.dirty _, others := fun _ _ => ⟨rfl, rfl⟩, disk := fun hd => ?_, data := fun _ hnone => ?_ }
  · rcases eq_or_ne j r.buf with rfl | hne
    · simp [System.setBuf, System.setProc]
    · simp [System.setBuf, System.setProc, hne]
  · refine h.disk _ fun j hj => ?_
    rw [h.unique j r.buf _ hj ⟨hc.1, rfl⟩]
    exact hd
  · exact absurd hf (hnone p f (by simp [System.setProc]))

theorem System.Inv.written {d : Bool} (h : s.Inv last) (hf : (s.proc p).finish = some f)
    (hbuf : s'.buf = Function.update s.buf f.buf { s.buf f.buf with valid := true, dirty := d })
    (hproc : s'.proc = Function.update s.proc p { s.proc p with finish := none })
    (horder : s'.order = s.order) (hothers : ∀ b, b ≠ (s.buf f.buf).blockno → s'.disk b = s.disk b)
    (hdisk : d = false → s'.disk (s.buf f.buf).blockno = (s.buf f.buf).data) :
    s'.Inv (Function.update last (s.buf f.buf).blockno (s.buf f.buf).data) := by
  obtain ⟨r, hr, hrbuf, hhold⟩ := h.finish p f hf
  have hc := hrbuf ▸ (h.holds p r hr).carries
  refine h.touch
    { buf := hbuf, proc := hproc, order := horder ▸ h.order, dev := hc.1, key := ⟨rfl, rfl⟩, lock := .inl rfl
      valid := fun _ => rfl
      refcnt := fun j => ?_, holds := fun r' hr' => (h.holds p r' hr').update hbuf ⟨rfl, rfl⟩ rfl fun _ => rfl
      finish := by simp, finished := fun f' hf' => by rw [Option.some.inj (hf'.symm.trans hf)]
      dirty := fun _ => rfl, others := fun b hb => ⟨hothers b hb, Function.update_of_ne hb ..⟩
      disk := fun hd => by rw [hdisk hd, Function.update_self], data := fun _ _ => by rw [Function.update_self] }
  rw [hbuf]
  rcases eq_or_ne j f.buf with rfl | hne
  · rw [Function.update_self]
  · rw [Function.update_of_ne hne]

theorem System.Inv.micro {m : Micro} (h : s.Inv last) (hfin : (s.proc p).finish = none) (hs : s.micro p m = some s') :
    s'.Inv last := by
  cases m with
  | bget b =>
    obtain rfl := Option.some.inj hs
    exact h.bget hfin
  | acquiresleep b =>
    obtain ⟨r, hr, hs⟩ := Option.bind_eq_some_iff.mp hs
    obtain ⟨hmem, rfl⟩ := System.ref_some hr
    split_ifs at hs with hlock
    obtain rfl := Option.some.inj hs
    exact h.acquiresleep hfin hmem hlock
  | iderw b =>
    obtain ⟨r, hr, hs⟩ := Option.bind_eq_some_iff.mp hs
    split_ifs at hs with hhold
    obtain rfl := Option.some.inj hs
    exact (h.iderw hfin (System.ref_some hr).1 hhold).1
  | modify b src after =>
    obtain ⟨r, hr, hs⟩ := Option.bind_eq_some_iff.mp hs
    split_ifs at hs with hhold
    obtain ⟨v, -, rfl⟩ := Option.map_eq_some_iff.mp hs
    exact h.modify hfin (System.ref_some hr).1 hhold (by cases after <;> rfl)
  | releasesleep b =>
    obtain ⟨r, hr, hs⟩ := Option.bind_eq_some_iff.mp hs
    obtain ⟨hmem, rfl⟩ := System.ref_some hr
    split_ifs at hs with hhold
    · obtain rfl := Option.some.inj hs
      exact h.congr rfl rfl rfl fun _ => ⟨rfl, rfl⟩
    · obtain rfl := Option.some.inj hs
      exact h.releasesleep hfin hmem hhold
  | unref b =>
    obtain ⟨r, hr, hs⟩ := Option.bind_eq_some_iff.mp hs
    split_ifs at hs with hhold
    obtain rfl := Option.some.inj hs
    exact h.unref hfin hr

theorem System.Inv.advance (h : s.Inv last) (hproc : s'.proc = Function.update s.proc p y)
    (hrefs : y.refs = (s.proc p).refs) (hfin : y.finish = (s.proc p).finish) (hbuf : s'.buf = s.buf)
    (horder : s'.order = s.order) (hdisk : s'.disk = s.disk) : s'.Inv last := by
  refine h.congr hbuf horder hdisk fun q => ?_
  rw [hproc]
  rcases eq_or_ne q p with rfl | hne
  · simp [hrefs, hfin]
  · simp [hne]

theorem System.Inv.commit (h : s.Inv last) (stage : Stage) : (s.commit A p stage).Inv last := by
  cases stage with
  | writeLog tail =>
    simp only [System.commit]
    split <;> exact h.advance rfl rfl rfl rfl rfl rfl
  | installTrans tail =>
    simp only [System.commit]
    split
    · exact h.advance rfl rfl rfl rfl rfl rfl
    · exact h.advance rfl rfl rfl rfl rfl rfl
  | committed => exact h.advance rfl rfl rfl rfl rfl rfl

theorem System.Inv.call {c : Call} (h : s.Inv last) (hs : s.call p c = some s') : s'.Inv last := by
  cases c with
  | bread b | write b v | brelse b =>
    obtain rfl := Option.some.inj hs
    exact h.advance rfl rfl rfl rfl rfl rfl
  | beginOp =>
    simp only [System.call] at hs
    split_ifs at hs
    obtain rfl := Option.some.inj hs
    exact h.congr rfl rfl rfl fun _ => ⟨rfl, rfl⟩
  | endOp =>
    simp only [System.call] at hs
    split_ifs at hs
    · obtain rfl := Option.some.inj hs
      exact h.congr rfl rfl rfl fun _ => ⟨rfl, rfl⟩
    all_goals
      obtain rfl := Option.some.inj hs
      first
        | exact h.advance rfl rfl rfl rfl rfl rfl
        | exact h.congr rfl rfl rfl fun _ => ⟨rfl, rfl⟩

theorem System.Inv.finish_step (h : s.Inv last) (hf : (s.proc p).finish = some f) :
    (s.finish A p f).Inv (applyWrites last (History.written s (.run p)).toList) := by
  obtain ⟨r, hr, hrbuf, hhold⟩ := h.finish p f hf
  obtain ⟨hc, hlock, hvalid⟩ := h.holds p r hr
  rw [hrbuf] at hc hlock hvalid
  cases f with
  | logWriteTest i =>
    simp only [History.written, hf, Option.toList_none, applyWrites_nil, System.finish]
    split_ifs
    · exact h.congr rfl rfl rfl fun _ => ⟨rfl, rfl⟩
    · exact h.congr rfl rfl rfl fun _ => ⟨rfl, rfl⟩
    · refine h.touch (i := i) (x := s.buf i) (p := p)
        { buf := (Function.update_eq_self i s.buf).symm, proc := rfl, order := h.order, dev := hc.1, key := ⟨rfl, rfl⟩
          lock := .inl rfl, valid := id, refcnt := fun j => rfl, holds :=
            fun r' hr' => ⟨(h.holds p r' hr').carries, (h.holds p r' hr').lock, (h.holds p r' hr').valid⟩
          finish := fun f' hf' => ⟨r, hr, by rw [← Option.some.inj hf', hrbuf]; rfl, hhold⟩
          finished := fun f' hf' => by rw [← Option.some.inj (hf.symm.trans hf')]; rfl
          dirty := h.dirty i, others := fun _ _ => ⟨rfl, rfl⟩, disk := fun hd => ?_, data := fun _ hnone => ?_ }
      · refine h.disk _ fun j hj => ?_
        rw [h.unique j i _ hj ⟨hc.1, rfl⟩]
        exact hd
      · exact absurd rfl (hnone p (.logWriteRecord i) (by simp [System.setProc]))
  | logWriteRecord i =>
    simp only [History.written, hf, Option.toList_some]
    have hv : (s.buf i).valid = true := hvalid hhold
    have hsame : ({ s.buf i with dirty := true } : Buf ι) = { s.buf i with valid := true, dirty := true } := by
      rw [← hv]
    exact h.written (d := true) hf (congrArg (Function.update s.buf i) hsame) rfl rfl (fun _ _ => rfl) nofun
  | bwrite i =>
    simp only [History.written, hf, Option.toList_some, System.finish]
    have hl : (s.buf i).lock = some p := hlock (.inr hhold)
    rw [if_neg (by simp [hl])]
    exact h.written hf rfl rfl rfl (fun b hb => Function.update_of_ne hb ..) fun _ => Function.update_self ..

theorem System.Inv.step {e : Event ι} (h : s.Inv last) (hs : s.step A e = some s') :
    s'.Inv (applyWrites last (History.written s e).toList) ∧
      ∀ b v, History.bread s s' e = some (b, v) → v = applyWrites last (History.written s e).toList b := by
  simp only [System.step] at hs
  split at hs
  · cases hs
  cases e with
  | call p c =>
    simp only at hs
    split at hs
    · exact ⟨h.call hs, by simp [History.bread]⟩
    · cases hs
  | run p =>
    simp only [System.run] at hs
    split at hs
    · rename_i f hf
      obtain rfl := Option.some.inj hs
      exact ⟨h.finish_step hf, by simp [History.bread, hf]⟩
    · rename_i m todo hfin htodo
      have h' : (s.setProc p { s.proc p with todo }).Inv last := h.advance rfl rfl rfl rfl rfl rfl
      have hfin' : ((s.setProc p { s.proc p with todo }).proc p).finish = none := by simp [System.setProc, hfin]
      have hI := h'.micro hfin' hs
      simp only [History.written, hfin, Option.toList_none, applyWrites_nil]
      refine ⟨hI, fun b v hb => ?_⟩
      simp only [History.bread, hfin, htodo] at hb
      cases m with
      | iderw b' =>
        obtain ⟨r, hr, heq⟩ := Option.map_eq_some_iff.mp hb
        obtain ⟨rfl, rfl⟩ := Prod.mk.inj heq
        obtain ⟨hmem, rfl⟩ := System.ref_some hr
        obtain ⟨r', hr', hs⟩ := Option.bind_eq_some_iff.mp hs
        obtain ⟨hmem', hno⟩ := System.ref_some hr'
        split_ifs at hs with hhold
        obtain rfl := Option.some.inj hs
        rw [← hno]
        exact (h'.iderw hfin' hmem' hhold).2 _ (hno ▸ (hI.holds p r hmem).carries)
      | _ => cases hb
    · rename_i stage hfin htodo hstage
      obtain rfl := Option.some.inj hs
      simp only [History.written, hfin, Option.toList_none, applyWrites_nil]
      exact ⟨h.commit stage, by simp [History.bread, hfin, htodo]⟩
    · cases hs

end Steps

/-! ### Transparency -/

namespace History
variable {ι : Type}

/-- At most one buffer in use or with contents carries a block, and a `bread` returns what was last written to its
    block, or was on the disk `d`. -/
structure Transparent (d : Disk) (h : History ι) : Prop where
  unique : ∀ i j, 0 < (h.sys.buf i).refcnt ∨ (h.sys.buf i).valid = true →
    0 < (h.sys.buf j).refcnt ∨ (h.sys.buf j).valid = true → (h.sys.buf i).dev = rootdev →
    (h.sys.buf j).dev = rootdev → (h.sys.buf i).blockno = (h.sys.buf j).blockno → i = j
  returned : ∀ b v, h.returned = some (b, v) → v = applyWrites d h.writes b

structure Inv [Fintype ι] (d : Disk) (h : History ι) : Prop where
  sys : h.sys.Inv (applyWrites d h.writes)
  returned : ∀ b v, h.returned = some (b, v) → v = applyWrites d h.writes b

theorem Inv.binit [Fintype ι] (d : Disk) : Inv d (binit d : History ι) where
  sys :=
    { order := fun i => by simp [History.binit, System.binit]
      unique := fun i j b hi => nomatch hi.1
      refcnt := fun i => by simp [System.uses, History.binit, System.binit]
      holds := by simp [History.binit, System.binit]
      finish := by simp [History.binit, System.binit]
      dirty := by simp [History.binit, System.binit]
      disk := fun _ _ => rfl
      data := fun i b hi => nomatch hi.1 }
  returned := by simp [History.binit]

variable [DecidableEq ι] [Fintype ι]

theorem Inv.step {A : Area} {d : Disk} {h h' : History ι} {e : Event ι} (hI : Inv d h) (hs : h.step A e = some h') :
    Inv d h' := by
  obtain ⟨s, hstep, rfl⟩ := Option.map_eq_some_iff.mp hs
  have := hI.sys.step hstep
  rw [← applyWrites_append] at this
  exact ⟨this.1, this.2⟩

/-- The cache is transparent in every run, however the processes interleave. -/
theorem transparent {A : Area} {d : Disk} {tr : List (History ι × Event ι)} {h : History ι}
    (hr : Run (OfStep (step A)) (binit d) tr h) : Always (Transparent d) tr h := by
  have hG : Meets (fun _ _ => True) tr := fun _ _ => trivial
  refine (hr.always (Inv.binit d) hG fun hI _ hs => hI.step hs).mono fun h hI => ?_
  exact ⟨fun i j _ _ hi hj hb => hI.sys.unique i j _ ⟨hi, rfl⟩ ⟨hj, hb.symm⟩, hI.returned⟩

/-- One process changes a block, and another one reads it. -/
theorem transparent_two :
    ∃ (tr : List (History (Fin 2) × Event (Fin 2))) (h : History (Fin 2)),
      Run (OfStep (step .mkfs)) (binit fun _ _ => 0) tr h ∧
      h.returned.map (fun r => (r.1, r.2 0)) = some (40, 7) ∧ Always (Transparent fun _ _ => 0) tr h := by
  obtain ⟨tr, h, hr, -, hret⟩ := Run.exists_of_traceOf (f := step .mkfs) (binit fun _ _ => 0 : History (Fin 2))
    [.call 0 .beginOp, .call 0 (.bread 40), .run 0, .run 0, .run 0, .call 0 (.write 40 fun _ => 7), .run 0,
      .call 1 (.bread 40), .run 1, .run 0, .run 0, .call 0 (.brelse 40), .run 0, .run 1, .run 0, .run 1]
    (fun _ h => h.returned.map (fun r => (r.1, r.2 0)) = some (40, 7)) (by decide +kernel)
  exact ⟨tr, h, hr, hret, transparent hr⟩

end History

end Xv6.Bcache
