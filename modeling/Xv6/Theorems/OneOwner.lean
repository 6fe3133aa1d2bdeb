import Mathlib.Algebra.BigOperators.Fin
import Xv6.Lib.Run
import Xv6.Pages
import Xv6.Theorems.OutOfMemory

/-! Every physical page has one owner. All pages that the system holds are counted together, and no operation holds
    more of a page afterwards than before. -/

namespace Xv6.Pages
open Lib Vm

/-! ### The pages in the system -/

/-- The kernel stack, and the page directory of a slot that is in use. -/
def Proc.pages (p : Proc) : Multiset Frame := held p.kstack + if p.state = .unused then 0 else p.pgdir.elim 0 Pgdir.pages

theorem Proc.pages_used {p : Proc} {d : Pgdir} (h : p.state ≠ .unused) (hd : p.pgdir = some d) :
    p.pages = held p.kstack + d.pages := by
  rw [Proc.pages, if_neg h, hd, Option.elim_some]

namespace State

/-- All places that hold pages: the free list, the page tables of the kernel, the processes and the pipes. -/
def owners (s : State) : Multiset Frame :=
  s.free + s.kpgdir.pages + ∑ i, (s.proc i).pages + (s.pipes.map Pipe.page : List Frame)

def OneOwner (s : State) : Prop := s.owners.Nodup

def opened (s : State) : Multiset (Fin nfile) := ∑ i, ∑ fd, held ((s.proc i).ofile fd)

end State

section
variable {s : State} {i : Fin nproc} {fd : Fin nofile} {o : Option (Fin nfile)} {p : Proc}

theorem owners_setProc : (s.setProc i p).owners + (s.proc i).pages = s.owners + p.pages := by
  have := sum_update_add (fun _ p => Proc.pages p) s.proc (Finset.mem_univ i) p
  simp only [State.owners, State.setProc]
  calc _ = (s.free : Multiset Frame) + s.kpgdir.pages + (s.pipes.map Pipe.page : List Frame) +
        (∑ x, (Function.update s.proc i p x).pages + (s.proc i).pages) := by ac_rfl
    _ = _ := by
      rw [this]
      ac_rfl

theorem owners_setOfile : (s.setOfile i fd o).owners = s.owners :=
  add_right_cancel (b := (s.proc i).pages) (owners_setProc.trans rfl)

theorem opened_setOfile (s : State) (i : Fin nproc) (fd : Fin nofile) (o : Option (Fin nfile)) :
    (s.setOfile i fd o).opened + held ((s.proc i).ofile fd) = s.opened + held o := by
  have h1 := sum_update_add (fun _ p => ∑ fd, held (Proc.ofile p fd)) s.proc (Finset.mem_univ i)
    { s.proc i with ofile := Function.update (s.proc i).ofile fd o }
  have h2 := sum_update_add (fun _ o => held o) (s.proc i).ofile (Finset.mem_univ fd) o
  have h3 : (s.setOfile i fd o).opened + ∑ fd, held ((s.proc i).ofile fd) =
      s.opened + ∑ x, held (Function.update (s.proc i).ofile fd o x) := h1
  refine add_right_cancel (b := ∑ fd, held ((s.proc i).ofile fd)) ?_
  calc _ = (s.setOfile i fd o).opened + ∑ fd, held ((s.proc i).ofile fd) + held ((s.proc i).ofile fd) := by ac_rfl
    _ = s.opened + (∑ x,
      held (Function.update (s.proc i).ofile fd o x) + held ((s.proc i).ofile fd)) := by rw [h3, add_assoc]
    _ = _ := by
      rw [h2]
      ac_rfl

end

/-! ### Files and pipes -/

def Pipe.IsOpen (q : Pipe) (writable : Bool) : Prop := (if writable then q.writeopen else q.readopen) = true

/-- The reference counts are those of `refs`, and no two files of pipes hold the same end. -/
structure Files (s : State) (refs : Multiset (Fin nfile)) : Prop where
  count : ∀ f, (s.file f).ref = refs.count f
  unref : ∀ f, (s.file f).ref = 0 → (s.file f).pipe = none
  opens : ∀ f p, (s.file f).pipe = some p → ∃ q ∈ s.pipes, q.page = p ∧ q.IsOpen (s.file f).writable
  apart : ∀ f f' p, (s.file f).pipe = some p → (s.file f').pipe = some p →
    (s.file f).writable = (s.file f').writable → f = f'
  distinct : (s.pipes.map Pipe.page).Nodup

section
variable {l : KernelLayout} {s s' : State} {f : Fin nfile} {refs : Multiset (Fin nfile)}

theorem Files.congr (h : Files s refs) (hf : s'.file = s.file) (hp : s'.pipes = s.pipes) : Files s' refs := by
  obtain ⟨h1, h2, h3, h4, h5⟩ := h
  exact ⟨by rwa [hf], by rwa [hf], by rwa [hf, hp], by rwa [hf], by rwa [hp]⟩

theorem Files.setFile {refs' : Multiset (Fin nfile)} {file : File} (h : Files s refs)
    (hw : file.writable = (s.file f).writable)
    (hpipe : ∀ p, file.pipe = some p → (s.file f).pipe = some p) (hunref : file.ref = 0 → file.pipe = none)
    (hcount : ∀ g, (if g = f then file.ref else refs.count g) = refs'.count g) : Files (s.setFile f file) refs' := by
  have hself : (s.setFile f file).file f = file := Function.update_self ..
  have hne {g : Fin nfile} (hg : g ≠ f) : (s.setFile f file).file g = s.file g := Function.update_of_ne hg ..
  have hpipe' {g : Fin nfile} {p : Frame} (hg : ((s.setFile f file).file g).pipe = some p) : (s.file g).pipe = some p := by
    by_cases hgf : g = f
    · rw [hgf, hself] at hg
      rw [hgf]
      exact hpipe p hg
    · rwa [hne hgf] at hg
  have hw' (g : Fin nfile) : ((s.setFile f file).file g).writable = (s.file g).writable := by
    by_cases hgf : g = f
    · rw [hgf, hself, hw]
    · rw [hne hgf]
  refine ⟨fun g => ?_, fun g hg => ?_, fun g p hg => ?_, fun g g' p hg hg' hgg => ?_, h.distinct⟩
  · rw [← hcount g]
    by_cases hgf : g = f
    · rw [hgf, hself, if_pos rfl]
    · rw [hne hgf, if_neg hgf, h.count]
  · by_cases hgf : g = f
    · rw [hgf, hself] at hg ⊢
      exact hunref hg
    · rw [hne hgf] at hg ⊢
      exact h.unref g hg
  · rw [hw']
    exact h.opens g p (hpipe' hg)
  · rw [hw', hw'] at hgg
    exact h.apart g g' p (hpipe' hg) (hpipe' hg') hgg

theorem filealloc_none (h : filealloc s = (none, s')) : s' = s := by
  unfold filealloc at h
  split at h
  · cases h
    rfl
  · cases h

theorem filealloc_some (h : filealloc s = (some f, s')) :
    (s.file f).ref = 0 ∧ s' = s.setFile f { s.file f with ref := 1 } := by
  unfold filealloc at h
  split at h
  · cases h
  · rename_i g hfind
    cases h
    have := List.find?_some hfind
    exact ⟨by simpa using this, rfl⟩

theorem Files.filealloc (h : Files s refs) (hf : filealloc s = (some f, s')) : Files s' (f ::ₘ refs) := by
  obtain ⟨h0, rfl⟩ := filealloc_some hf
  refine h.setFile rfl (fun _ => id) nofun fun g => ?_
  by_cases hg : g = f
  · rw [if_pos hg, hg, Multiset.count_cons_self, ← h.count, h0]
  · rw [if_neg hg, Multiset.count_cons_of_ne hg]

theorem Files.filedup (h : Files s refs) (hf : filedup s f = some s') : Files s' (f ::ₘ refs) := by
  unfold Pages.filedup at hf
  split at hf
  · cases hf
  · cases hf
    refine h.setFile rfl (fun _ => id) nofun fun g => ?_
    by_cases hg : g = f
    · rw [if_pos hg, hg, Multiset.count_cons_self, ← h.count]
    · rw [if_neg hg, Multiset.count_cons_of_ne hg]

theorem Pipe.close_page (q : Pipe) (w : Bool) : (q.close w).page = q.page := by
  cases w <;> rfl

theorem Pipe.close_isOpen {q : Pipe} {w w' : Bool} (h : q.IsOpen w') (hw : w' ≠ w) : (q.close w).IsOpen w' := by
  cases w <;> cases w' <;> first | exact absurd rfl hw | exact h

theorem Files.pipeclose {refs₀ : Multiset (Fin nfile)} {p : Frame} {w : Bool} {t : State} (h : Files s refs₀)
    (hpipe : (s.file f).pipe = some p) (hw : (s.file f).writable = w) (ht : Files t refs) (hpipes : t.pipes = s.pipes)
    (hfile : ∀ g q, (t.file g).pipe = some q → g ≠ f ∧ (s.file g).pipe = some q ∧ (t.file g).writable = (s.file g).writable)
    (hc : pipeclose l t p w = some s') :
    Files s' refs ∧ s'.owners = t.owners ∧ s'.proc = t.proc := by
  obtain ⟨q, hq, hqp, hopen⟩ := h.opens f p hpipe
  -- The pipe that is found is the pipe of the file.
  have huniq {q' : Pipe} (hq' : q' ∈ s.pipes) (hp : q'.page = p) : q' = q :=
    List.inj_on_of_nodup_map h.distinct hq' hq (hp.trans hqp.symm)
  -- Another file of the pipe holds the other end.
  have hother {g : Fin nfile} (hg : (t.file g).pipe = some p) : q.IsOpen (!w) ∧ (t.file g).writable = !w := by
    obtain ⟨hne, hgp, hgw⟩ := hfile g p hg
    have hwne : (s.file g).writable ≠ w := fun hc => hne (h.apart g f p hgp hpipe (hc.trans hw.symm))
    have hgw' : (s.file g).writable = !w := by
      revert hwne
      cases (s.file g).writable <;> cases w <;> simp
    obtain ⟨q', hq', hp', ho⟩ := h.opens g p hgp
    rw [huniq hq' hp', hgw'] at ho
    exact ⟨ho, hgw.trans hgw'⟩
  unfold Pages.pipeclose at hc
  rw [hpipes] at hc
  have hfind : s.pipes.find? (·.page = p) = some q := by
    cases hf : s.pipes.find? (·.page = p) with
    | none => exact absurd hqp (by simpa using List.find?_eq_none.mp hf q hq)
    | some q' => rw [huniq (List.mem_of_find?_eq_some hf) (by simpa using List.find?_some hf)]
  rw [hfind] at hc
  dsimp only at hc
  split at hc
  · rename_i hclosed
    obtain ⟨free, hfree, heq⟩ := Option.map_eq_some_iff.mp hc
    cases heq
    -- Both ends are closed now, so no other file has the pipe.
    have hno (g : Fin nfile) : (t.file g).pipe ≠ some p := fun hg => by
      have ho := (hother hg).1
      cases w
      · exact Bool.noConfusion ((show q.writeopen = true from ho).symm.trans hclosed.2)
      · exact Bool.noConfusion ((show q.readopen = true from ho).symm.trans hclosed.1)
    refine ⟨⟨ht.count, ht.unref, fun g r hg => ?_, ht.apart, ?_⟩, ?_, rfl⟩
    · obtain ⟨q', hq', hp', ho⟩ := ht.opens g r hg
      have hne : ¬q'.page = p := fun hc => hno g (by rw [hg, ← hp', hc])
      exact ⟨q', (List.mem_eraseP_of_neg (by simpa using hne)).mpr (hpipes ▸ hq'), hp', ho⟩
    · exact h.distinct.sublist ((List.eraseP_sublist ..).map _)
    · obtain ⟨q', l₁, l₂, -, hq', hl, he⟩ := List.exists_of_eraseP (p := (·.page = p)) hq (by simpa using hqp)
      have hq' : q'.page = p := by simpa using hq'
      simp only [State.owners, kfree_eq hfree, hpipes]
      rw [he, hl]
      simp only [List.map_append, List.map_cons, hq', ← Multiset.coe_add, coe_cons]
      ac_rfl
  · cases hc
    have hpages : (s.pipes.map fun q => if q.page = p then q.close w else q).map Pipe.page = s.pipes.map Pipe.page := by
      rw [List.map_map]
      refine List.map_congr_left fun q' _ => ?_
      simp only [Function.comp]
      split
      · exact Pipe.close_page ..
      · rfl
    refine ⟨⟨ht.count, ht.unref, fun g r hg => ?_, ht.apart, ?_⟩, ?_, rfl⟩
    · obtain ⟨q', hq', hp', ho⟩ := ht.opens g r hg
      refine ⟨_, List.mem_map_of_mem (hpipes ▸ hq'), ?_⟩
      split
      · rename_i hqp'
        obtain ⟨-, hgw⟩ := hother (g := g) (by rw [hg, ← hp', hqp'])
        exact ⟨(Pipe.close_page ..).trans hp', Pipe.close_isOpen ho (by rw [hgw]; cases w <;> simp)⟩
      · exact ⟨hp', ho⟩
    · exact hpages ▸ h.distinct
    · simp only [State.owners, hpages, hpipes]

theorem Files.fileclose (h : Files s (f ::ₘ refs)) (hc : fileclose l s f = some s') :
    Files s' refs ∧ s'.owners = s.owners ∧ s'.proc = s.proc := by
  have hcount := h.count f
  rw [Multiset.count_cons_self] at hcount
  have hrefs (g : Fin nfile) (hg : g ≠ f) : (f ::ₘ refs).count g = refs.count g := Multiset.count_cons_of_ne hg refs
  unfold Pages.fileclose at hc
  split_ifs at hc with h1 h2
  · cases hc
    refine ⟨h.setFile rfl (fun _ => id) (fun h0 => absurd h0 (Nat.ne_of_gt h2)) fun g => ?_, rfl, rfl⟩
    by_cases hg : g = f
    · rw [if_pos hg, hg]
      dsimp only
      omega
    · rw [if_neg hg, hrefs g hg]
  · have hset : Files (s.setFile f { s.file f with ref := 0, pipe := none }) refs := by
      refine h.setFile rfl nofun (fun _ => rfl) fun g => ?_
      by_cases hg : g = f
      · rw [if_pos hg, hg]
        dsimp only
        omega
      · rw [if_neg hg, hrefs g hg]
    split at hc
    · cases hc
      exact ⟨hset, rfl, rfl⟩
    · rename_i p hp
      have hfile (g : Fin nfile) (q : Frame) (hg : ((s.setFile f { s.file f with ref := 0, pipe := none }).file g).pipe =
        some q) :
          g ≠ f ∧ (s.file g).pipe = some q ∧
            ((s.setFile f { s.file f with ref := 0, pipe := none }).file g).writable = (s.file g).writable := by
        by_cases hgf : g = f
        · subst hgf
          rw [State.setFile] at hg
          simp at hg
        · have : (s.setFile f { s.file f with ref := 0, pipe := none }).file g = s.file g := Function.update_of_ne hgf ..
          rw [this] at hg ⊢
          exact ⟨hgf, hg, rfl⟩
      obtain ⟨hfiles, howners, hproc⟩ := h.pipeclose hp rfl hset rfl hfile hc
      exact ⟨hfiles, howners, hproc⟩

theorem Files.attach {p : Frame} {w : Bool} (h : Files s refs) (hf : (s.file f).ref ≠ 0)
    (hq : ∃ q ∈ s.pipes, q.page = p ∧ q.IsOpen w)
    (hfree : ∀ g ≠ f, (s.file g).pipe = some p → (s.file g).writable ≠ w) :
    Files (s.setFile f { s.file f with pipe := some p, writable := w }) refs := by
  have hself : (s.setFile f { s.file f with pipe := some p, writable := w }).file f =
    { s.file f with pipe := some p, writable := w } := Function.update_self ..
  have hne {g : Fin nfile} (hg : g ≠ f) :
    (s.setFile f { s.file f with pipe := some p, writable := w }).file g = s.file g := Function.update_of_ne hg ..
  refine ⟨fun g => ?_, fun g hg => ?_, fun g r hg => ?_, fun g g' r hg hg' hgg => ?_, h.distinct⟩
  · by_cases hgf : g = f
    · rw [hgf, hself, ← h.count f]
    · rw [hne hgf, h.count]
  · by_cases hgf : g = f
    · rw [hgf, hself] at hg
      exact absurd hg hf
    · rw [hne hgf] at hg ⊢
      exact h.unref g hg
  · by_cases hgf : g = f
    · rw [hgf, hself] at hg ⊢
      cases hg
      exact hq
    · rw [hne hgf] at hg ⊢
      exact h.opens g r hg
  · by_cases hgf : g = f <;> by_cases hgf' : g' = f
    · rw [hgf, hgf']
    · rw [hgf, hself, hne hgf'] at hgg
      rw [hgf, hself] at hg
      rw [hne hgf', ← hg] at hg'
      exact absurd hgg.symm (hfree g' hgf' hg')
    · rw [hgf', hself, hne hgf] at hgg
      rw [hgf', hself] at hg'
      rw [hne hgf, ← hg'] at hg
      exact absurd hgg (hfree g hgf hg)
    · rw [hne hgf] at hg hgg
      rw [hne hgf'] at hg' hgg
      exact h.apart g g' r hg hg' hgg

theorem Files.newPipe {f₀ f₁ : Fin nfile} {p : Frame} (h : Files s refs) (hne : f₀ ≠ f₁) (h₀ : (s.file f₀).ref ≠ 0)
    (h₁ : (s.file f₁).ref ≠ 0) (hp : p ∉ s.pipes.map Pipe.page) :
    let t : State := { s with pipes := ⟨p, true, true⟩ :: s.pipes }
    let t := t.setFile f₀ { t.file f₀ with pipe := some p, writable := false }
    Files (t.setFile f₁ { t.file f₁ with pipe := some p, writable := true }) refs := by
  -- No file has had the page of the new pipe.
  have hfresh (g : Fin nfile) : (s.file g).pipe ≠ some p := fun hg => by
    obtain ⟨q, hq, hqp, -⟩ := h.opens g p hg
    exact hp (hqp ▸ List.mem_map_of_mem hq)
  have hadd : Files { s with pipes := ⟨p, true, true⟩ :: s.pipes } refs := by
    refine ⟨h.count, h.unref, fun g r hg => ?_, h.apart, List.nodup_cons.mpr ⟨hp, h.distinct⟩⟩
    obtain ⟨q, hq, hqp⟩ := h.opens g r hg
    exact ⟨q, List.mem_cons_of_mem _ hq, hqp⟩
  have hfirst := hadd.attach (w := false) h₀ ⟨_, List.mem_cons_self, rfl, rfl⟩ fun g _ hg => absurd hg (hfresh g)
  refine hfirst.attach ?_ ⟨_, List.mem_cons_self, rfl, rfl⟩ fun g _ hg => ?_
  · simp only [State.setFile, Function.update_of_ne hne.symm]
    exact h₁
  · by_cases hg₀ : g = f₀
    · simp [hg₀, State.setFile]
    · simp only [State.setFile, Function.update_of_ne hg₀] at hg
      exact absurd hg (hfresh g)

end

/-! ### The page tables -/

section
variable {l : KernelLayout} {m m' : Space} {free free' : List Frame} {pgdir : Pgdir} {i sz oldsz newsz r : Nat}
  {o : Option Pgdir}

theorem copyuvmLoop_le {k : Nat} {d d' : Space} {r : Bool} (hi : i % pgsize = 0) (hk : i + k * pgsize ≤ wordLimit)
    (h : copyuvmLoop pgdir k d i = some (r, d')) : d'.pages ≤ d.pages := by
  induction k generalizing d i with
  | zero =>
    cases h
    exact le_refl _
  | succ k ih =>
    unfold copyuvmLoop at h
    rw [Nat.succ_mul] at hk
    have hlt : i < wordLimit := by
      simp only [pgsize] at hk
      omega
    split at h
    · cases h
    split at h
    · cases h
    split at h
    · rename_i free halloc
      obtain ⟨h1, h2⟩ := kalloc_none halloc
      cases h
      rw [Space.pages, Space.pages, h1, h2]
    · rename_i mem free halloc
      have htake := pages_take (kalloc_some halloc)
      rw [mappages_page hi hlt] at h
      split at h
      · cases h
      · rename_i m₁ hmap
        cases h
        obtain ⟨rfl, -⟩ := mappage_false hmap
        exact htake ▸ Multiset.le_add_right ..
      · rename_i m₁ hmap
        have hm := (mappage_true hmap hlt).pages
        rw [Nat.mul_div_cancel _ (by decide)] at hm
        refine (ih (by simp only [pgsize] at *; omega) (by omega) h).trans ?_
        rw [hm, ← htake]
        split_ifs
        · exact le_refl _
        · rw [add_zero]
          exact Multiset.le_add_right ..

theorem setupkvm_le (h : setupkvm l free = some (o, free')) :
    (free' : Multiset Frame) + o.elim 0 Pgdir.pages ≤ free := by
  cases o with
  | none =>
    rw [(setupkvm_none h).1]
    exact Multiset.zero_le _
  | some d =>
    rw [Option.elim_some]
    exact le_of_eq (setupkvm_some h).2.1.symm

theorem copyuvm_le (hsz : sz ≤ kernbase) (h : copyuvm l pgdir free sz = some (o, free')) :
    (free' : Multiset Frame) + o.elim 0 Pgdir.pages ≤ free := by
  unfold copyuvm at h
  split at h
  · cases h
  · rename_i free₁ hset
    cases h
    exact setupkvm_le hset
  · rename_i d free₁ hset
    have hle := setupkvm_le hset
    rw [Option.elim_some, ← Space.pages_mk] at hle
    have hk : 0 + (sz + pgsize - 1) / pgsize * pgsize ≤ wordLimit := by
      simp only [pgsize, wordLimit, kernbase] at *
      omega
    split at h
    · cases h
    · rename_i d' hloop
      obtain ⟨free₂, hfreevm, heq⟩ := Option.map_eq_some_iff.mp h
      cases heq
      rw [freevm_pages hfreevm, Option.elim_none, add_zero]
      exact (copyuvmLoop_le (by decide) hk hloop).trans hle
    · rename_i d' hloop
      cases h
      rw [Option.elim_some, ← Space.pages_mk]
      exact (copyuvmLoop_le (by decide) hk hloop).trans hle

theorem allocuvm_sz (hsz : oldsz ≤ kernbase) (h : allocuvm l m oldsz newsz = some (r, m')) : r ≤ kernbase := by
  obtain ⟨ok, -, rfl⟩ := allocuvm_size h
  split_ifs with h1
  · exact Nat.zero_le _
  · exact hsz
  · exact Nat.le_of_not_le h1
  · exact Nat.zero_le _

theorem deallocuvm_sz (hsz : oldsz ≤ kernbase) (h : deallocuvm l m oldsz newsz = some (r, m')) : r ≤ kernbase := by
  rw [← deallocuvm_size h]
  split
  · exact hsz
  · exact Nat.le_trans (Nat.le_of_not_le ‹_›) hsz

theorem clearpteu_pages {uva : Nat} (huva : uva < kernbase) (h : clearpteu m uva = some m') : m'.pages = m.pages := by
  unfold clearpteu at h
  rw [walkpgdir_look] at h
  split at h
  · cases h
  · rename_i t ht
    cases h
    have huser := Pgdir.user_setPte (e := (t.pte (ptx uva)).map fun e => { e with flags := e.flags &&& ~~~pteU }) ht huva
    rw [Pgdir.entry_of_table ht (Nat.lt_trans huva (by decide)), Option.map_map] at huser
    have huser := add_right_cancel huser
    simp only [Space.pages, Pgdir.pages, Pgdir.tables_setPte ht, huser]
    rfl

theorem loadSegments_spec {env : LoadEnv} {phs : List Proghdr} {o : Option Nat} (hsz : sz ≤ kernbase)
    (h : loadSegments l env phs i m sz = some (o, m')) : m'.pages = m.pages ∧ ∀ r ∈ o, r ≤ kernbase := by
  induction phs generalizing i m sz with
  | nil =>
    cases h
    refine ⟨rfl, fun r hr => ?_⟩
    cases hr
    exact hsz
  | cons ph phs ih =>
    unfold loadSegments at h
    split at h
    · cases h
      exact ⟨rfl, nofun⟩
    split at h
    · exact ih hsz h
    split at h
    · cases h
      exact ⟨rfl, nofun⟩
    split at h
    · cases h
      exact ⟨rfl, nofun⟩
    split at h
    · cases h
    · rename_i r m₁ halloc
      have hpages := allocuvm_pages halloc
      split_ifs at h
      · cases h
        exact ⟨hpages, nofun⟩
      · cases h
        exact ⟨hpages, nofun⟩
      · cases h
        exact ⟨hpages, nofun⟩
      · obtain ⟨h1, h2⟩ := ih (allocuvm_sz hsz halloc) h
        exact ⟨h1.trans hpages, h2⟩

theorem buildImage_spec {env : ExecEnv} {o : Option Nat} (h : buildImage l env m = some (o, m')) :
    m'.pages = m.pages ∧ ∀ r ∈ o, r ≤ kernbase := by
  unfold buildImage at h
  split at h
  · cases h
  · rename_i m₁ hload
    cases h
    exact loadSegments_spec (Nat.zero_le _) hload
  · rename_i sz m₁ hload
    obtain ⟨hpages, hsz⟩ := loadSegments_spec (Nat.zero_le _) hload
    have hsz := hsz sz rfl
    split at h
    · cases h
    · rename_i r m₂ halloc
      have hr : r ≤ kernbase := by
        refine allocuvm_sz ?_ halloc
        simp only [pgroundup, pgsize, kernbase] at *
        omega
      have hpages₂ := allocuvm_pages halloc
      split at h
      · cases h
        exact ⟨hpages₂.trans hpages, fun r hr => by cases hr⟩
      · obtain ⟨m₃, hclear, heq⟩ := Option.map_eq_some_iff.mp h
        cases heq
        have hlt : r - 2 * pgsize < kernbase := by
          simp only [pgsize, kernbase] at *
          omega
        refine ⟨((clearpteu_pages hlt hclear).trans hpages₂).trans hpages, fun r' hr' => ?_⟩
        split_ifs at hr'
        · cases hr'
          exact hr
        · cases hr'

end

/-! ### The operations -/

/-- The slot has no process that runs. -/
abbrev Proc.Gone (p : Proc) : Prop := p.state = .unused ∨ p.state = .embryo ∨ p.state = .zombie

/-- What every state that is reached satisfies. -/
structure State.Consistent (s : State) : Prop where
  owners : s.OneOwner
  sz : ∀ i, (s.proc i).sz ≤ kernbase
  files : Files s s.opened
  closed : ∀ i, (s.proc i).Gone → ∀ fd, (s.proc i).ofile fd = none

section
variable {l : KernelLayout} {s s' : State} {i j : Fin nproc} {free : List Frame} {p : Proc} {fd : Fin nofile}
  {o : Option (Fin nfile)} {f : Fin nfile} {fds : List (Fin nofile)} {s₁ : State} {loose : Multiset (Fin nfile)}

theorem owners_exchange (h : (free : Multiset Frame) + p.pages ≤ s.free + (s.proc i).pages) :
    ({ s with free }.setProc i p).owners ≤ s.owners := by
  have h1 : ({ s with free }.setProc i p).owners + (s.proc i).pages = State.owners { s with free } + p.pages :=
    owners_setProc
  have h2 : State.owners { s with free } + (s.free : Multiset Frame) = s.owners + free := by
    simp only [State.owners]
    ac_rfl
  refine le_of_add_le_add_right (a := s.free + (s.proc i).pages) ?_
  calc ({ s with free }.setProc i p).owners + (s.free + (s.proc i).pages)
      = State.owners { s with free } + p.pages + s.free := by rw [← h1]; ac_rfl
    _ = s.owners + (free + p.pages) := by
      rw [add_right_comm, h2]
      ac_rfl
    _ ≤ _ := add_le_add_right h _

theorem State.Consistent.exchange (h : s.Consistent)
    (hpages : (free : Multiset Frame) + p.pages ≤ s.free + (s.proc i).pages) (hsz : p.sz ≤ kernbase)
    (hofile : p.ofile = (s.proc i).ofile)
    (hclosed : p.Gone → ∀ fd, (s.proc i).ofile fd = none) :
    ({ s with free }.setProc i p).Consistent := by
  have hself : ({ s with free }.setProc i p).proc i = p := Function.update_self ..
  have hne {k : Fin nproc} (hk : k ≠ i) : ({ s with free }.setProc i p).proc k = s.proc k := Function.update_of_ne hk ..
  have hfile (k : Fin nproc) : (({ s with free }.setProc i p).proc k).ofile = (s.proc k).ofile := by
    by_cases hk : k = i
    · rw [hk, hself, hofile]
    · rw [hne hk]
  refine ⟨Multiset.nodup_of_le (owners_exchange hpages) h.owners, fun k => ?_, ?_, fun k hk fd => ?_⟩
  · by_cases hk : k = i
    · rw [hk, hself]
      exact hsz
    · rw [hne hk]
      exact h.sz k
  · have : ({ s with free }.setProc i p).opened = s.opened :=
      Finset.sum_congr rfl fun k _ => Finset.sum_congr rfl fun fd _ => by rw [hfile k]
    rw [this]
    exact h.files.congr rfl rfl
  · rw [hfile k]
    by_cases hki : k = i
    · rw [hki, hself] at hk
      rw [hki]
      exact hclosed hk fd
    · rw [hne hki] at hk
      exact h.closed k hk fd

theorem State.Consistent.setFree (h : s.Consistent) (hle : (free : Multiset Frame) ≤ s.free) :
    State.Consistent { s with free } := by
  refine ⟨Multiset.nodup_of_le ?_ h.owners, h.sz, h.files.congr rfl rfl, h.closed⟩
  simp only [State.owners, add_assoc]
  exact add_le_add_left hle _

theorem growproc_consistent {n : Int} (h : s.Consistent) (hlive : ¬(s.proc i).Gone)
    (hs : growproc l s i n = some s') : s'.Consistent := by
  unfold growproc at hs
  split at hs
  · cases hs
  · rename_i pgdir hpgdir
    dsimp only at hs
    obtain ⟨⟨r, m⟩, hm, heq⟩ := Option.map_eq_some_iff.mp hs
    cases heq
    have hsz := h.sz i
    have key : m.pages = Space.pages ⟨s.free, pgdir⟩ ∧ r ≤ kernbase := by
      split_ifs at hm
      · exact ⟨allocuvm_pages hm, allocuvm_sz hsz hm⟩
      · exact ⟨deallocuvm_pages hsz hm, deallocuvm_sz hsz hm⟩
      · cases hm
        exact ⟨rfl, hsz⟩
    refine h.exchange (le_of_eq ?_) ?_ rfl fun hc => absurd hc hlive
    · have hused : (s.proc i).state ≠ .unused := fun hc => hlive (.inl hc)
      have hnew :=
        Proc.pages_used
          (p := { s.proc i with pgdir := some m.dir, sz := if r = 0 ∧ n ≠ 0 then (s.proc i).sz else r }) hused rfl
      have hpages := key.1
      rw [Space.pages, Space.pages_mk] at hpages
      rw [Proc.pages_used hused hpgdir]
      refine (congrArg ((m.free : Multiset Frame) + ·) hnew).trans ?_
      rw [add_left_comm, hpages, add_left_comm]
    · by_cases hc : r = 0 ∧ n ≠ 0
      · exact (if_pos hc).le.trans hsz
      · exact (if_neg hc).le.trans key.2

theorem exec_consistent {env : ExecEnv} (h : s.Consistent) (hlive : ¬(s.proc i).Gone) (hs : exec l s i env = some s') :
    s'.Consistent := by
  unfold exec at hs
  split at hs
  · cases hs
    exact h
  split at hs
  · cases hs
  · rename_i free hset
    cases hs
    have hle := setupkvm_le hset
    rw [Option.elim_none, add_zero] at hle
    exact h.setFree hle
  · rename_i d free hset
    have hle := setupkvm_le hset
    rw [Option.elim_some] at hle
    split at hs
    · cases hs
    · rename_i m hbuild
      obtain ⟨free', hfreevm, heq⟩ := Option.map_eq_some_iff.mp hs
      cases heq
      refine h.setFree ?_
      rw [freevm_pages hfreevm, (buildImage_spec hbuild).1, Space.pages_mk]
      exact hle
    · rename_i sz m hbuild
      obtain ⟨hpages, hsz⟩ := buildImage_spec hbuild
      split at hs
      · cases hs
      · rename_i oldpgdir hold
        obtain ⟨free', hfreevm, heq⟩ := Option.map_eq_some_iff.mp hs
        cases heq
        refine h.exchange ?_ (hsz sz rfl) rfl fun hc => absurd hc hlive
        rw [freevm_pages hfreevm]
        simp only [Proc.pages, hold, if_neg (fun hc => hlive (.inl hc)), Option.elim_some]
        calc Space.pages ⟨m.free, oldpgdir⟩ + (held (s.proc i).kstack + m.dir.pages)
            = m.pages + (held (s.proc i).kstack + oldpgdir.pages) := by
              rw [Space.pages_mk, Space.pages]
              ac_rfl
          _ ≤ s.free + (held (s.proc i).kstack + oldpgdir.pages) := by
              rw [hpages, Space.pages_mk]
              exact add_le_add_left hle _

theorem wait_consistent (h : s.Consistent) (hs : wait l s i = some s') : s'.Consistent := by
  unfold wait at hs
  split at hs
  · cases hs
    exact h
  · rename_i j hfind
    have hj : (s.proc j).state = .zombie := by
      have := List.find?_some hfind
      simp only [decide_eq_true_eq] at this
      exact this.2
    split at hs
    · rename_i kstack pgdir hk hd
      split at hs
      · cases hs
      · rename_i free hfree
        obtain ⟨free', hfreevm, heq⟩ := Option.map_eq_some_iff.mp hs
        cases heq
        refine h.exchange (le_of_eq ?_) (h.sz j) rfl fun _ => h.closed j (.inr (.inr hj))
        rw [freevm_pages hfreevm, kfree_eq hfree]
        simp only [Proc.pages, hk, hd, hj, Space.pages, coe_cons, held_none, held_some, if_true,
          if_neg (by simp : ¬ProcState.zombie = .unused),
          Option.elim_some, add_zero]
        ac_rfl
    · cases hs

/-- Only the descriptors of process `i` change. -/
structure OnlyFiles (i : Fin nproc) (s s' : State) : Prop where
  self : s'.proc i = { s.proc i with ofile := (s'.proc i).ofile }
  other : ∀ k ≠ i, s'.proc k = s.proc k

namespace OnlyFiles

theorem of_proc (h : s'.proc = s.proc) : OnlyFiles i s s' :=
  ⟨by rw [h], fun k _ => congrFun h k⟩

theorem setOfile (h : OnlyFiles i s s') : OnlyFiles i s (s'.setOfile i fd o) where
  self := by
    have hself : (s'.setOfile i fd o).proc i = { s'.proc i with ofile := Function.update (s'.proc i).ofile fd o } :=
      Function.update_self ..
    rw [hself, h.self]
  other k hk := (Function.update_of_ne hk ..).trans (h.other k hk)

theorem trans (h : OnlyFiles i s s₁) (h' : OnlyFiles i s₁ s') : OnlyFiles i s s' where
  self := h'.self.trans (by rw [h.self])
  other k hk := (h'.other k hk).trans (h.other k hk)

theorem gone (h : OnlyFiles i s s') (hi : (s'.proc i).Gone) : (s.proc i).Gone := by
  rwa [h.self] at hi

end OnlyFiles

theorem Files.close (h : Files s s.opened) (hfd : (s.proc i).ofile fd = some f) :
    Files s (f ::ₘ (s.setOfile i fd none).opened) := by
  have := opened_setOfile s i fd none
  rw [hfd, held_none, held_some, add_zero] at this
  rw [← Multiset.singleton_add, add_comm, this]
  exact h

theorem opened_congr (h : s'.proc = s.proc) : s'.opened = s.opened := by
  rw [State.opened, State.opened, h]

theorem State.Consistent.ofFiles (h : s.Consistent) (hlive : ¬(s.proc i).Gone) (hsame : OnlyFiles i s s')
    (howners : s'.owners = s.owners) (hfiles : Files s' s'.opened) : s'.Consistent := by
  refine ⟨?_, fun k => ?_, hfiles, fun k hk => ?_⟩
  · rw [State.OneOwner, howners]
    exact h.owners
  · by_cases hki : k = i
    · rw [hki, hsame.self]
      exact h.sz i
    · rw [hsame.other k hki]
      exact h.sz k
  · by_cases hki : k = i
    · rw [hki] at hk
      exact absurd (hsame.gone hk) hlive
    · rw [hsame.other k hki] at hk ⊢
      exact h.closed k hk

theorem sysClose_spec (h : s.Consistent) (hlive : ¬(s.proc i).Gone) (hs : sysClose l s i fd = some s') :
    s'.Consistent ∧ OnlyFiles i s s' := by
  unfold sysClose at hs
  split at hs
  · cases hs
    exact ⟨h, .of_proc rfl⟩
  · rename_i f hf
    have hclose : Files (s.setOfile i fd none) (f ::ₘ (s.setOfile i fd none).opened) := (h.files.close hf).congr rfl rfl
    obtain ⟨hfiles, howners, hproc⟩ := hclose.fileclose hs
    have hsame : OnlyFiles i s s' := (OnlyFiles.of_proc rfl).setOfile.trans (.of_proc hproc)
    exact ⟨h.ofFiles hlive hsame (howners.trans owners_setOfile) (by rwa [opened_congr hproc]), hsame⟩

theorem closeFiles_spec (h : Files s s.opened) (hs : closeFiles l i fds s = some s') :
    Files s' s'.opened ∧ s'.owners = s.owners ∧ OnlyFiles i s s' ∧
      ∀ fd, (s.proc i).ofile fd = none ∨ fd ∈ fds → (s'.proc i).ofile fd = none := by
  induction fds generalizing s with
  | nil =>
    cases hs
    exact ⟨h, rfl, .of_proc rfl, fun fd hfd => hfd.resolve_right (by simp)⟩
  | cons fd fds ih =>
    unfold closeFiles at hs
    split at hs
    · rename_i hnone
      obtain ⟨h1, h2, h3, h4⟩ := ih h hs
      refine ⟨h1, h2, h3, fun fd' hfd => h4 fd' ?_⟩
      rcases hfd with hfd | hfd
      · exact .inl hfd
      · rcases List.mem_cons.mp hfd with rfl | hfd
        · exact .inl hnone
        · exact .inr hfd
    · rename_i f hf
      split at hs
      · cases hs
      · rename_i s₁ hclose
        obtain ⟨hfiles, howners, hproc⟩ := (h.close hf).fileclose hclose
        have hproc' : (s₁.setOfile i fd none).proc = (s.setOfile i fd none).proc := by
          simp only [State.setOfile, State.setProc, hproc]
        have hopened := opened_congr hproc'
        have hfiles' : Files (s₁.setOfile i fd none) (s₁.setOfile i fd none).opened := by
          rw [hopened]
          exact hfiles.congr rfl rfl
        obtain ⟨h1, h2, h3, h4⟩ := ih hfiles' hs
        have hofile : ((s₁.setOfile i fd none).proc i).ofile = Function.update (s₁.proc i).ofile fd none :=
          congrArg Proc.ofile (Function.update_self i _ s₁.proc)
        rw [congrFun hproc i] at hofile
        refine ⟨h1, h2.trans (owners_setOfile.trans howners), (OnlyFiles.of_proc hproc).setOfile.trans h3,
          fun fd' hfd => h4 fd' ?_⟩
        rw [hofile]
        by_cases hfd' : fd' = fd
        · rw [hfd', Function.update_self]
          exact .inl rfl
        · rw [Function.update_of_ne hfd']
          exact hfd.imp id fun hm => (List.mem_cons.mp hm).resolve_left hfd'

theorem exit_consistent (h : s.Consistent) (hlive : ¬(s.proc i).Gone) (hs : exit l s i = some s') : s'.Consistent := by
  unfold exit at hs
  split at hs
  · cases hs
  · obtain ⟨s₁, hclose, heq⟩ := Option.map_eq_some_iff.mp hs
    obtain ⟨h1, h2, h3, h4⟩ := closeFiles_spec h.files hclose
    have hmid : s₁.Consistent := h.ofFiles hlive h3 h2 h1
    -- The parents of the children change.
    have hpass : State.Consistent
        { s₁ with
          proc := fun j => if (s₁.proc j).parent = some i then { s₁.proc j with parent := some 0 } else s₁.proc j } := by
      have hpages (k : Fin nproc) :
          (if (s₁.proc k).parent = some i then { s₁.proc k with parent := some 0 } else s₁.proc k : Proc).pages =
          (s₁.proc k).pages := by
        split <;> rfl
      have hofile (k : Fin nproc) :
          (if (s₁.proc k).parent = some i then { s₁.proc k with parent := some 0 } else s₁.proc k : Proc).ofile =
          (s₁.proc k).ofile := by
        split <;> rfl
      refine ⟨?_, fun k => ?_, ?_, fun k hk fd => ?_⟩
      · have := hmid.owners
        simp only [State.OneOwner, State.owners, hpages] at this ⊢
        exact this
      · dsimp only
        split <;> exact hmid.sz k
      · have := hmid.files
        simp only [State.opened, hofile] at this ⊢
        exact this.congr rfl rfl
      · dsimp only at hk ⊢
        rw [hofile]
        refine hmid.closed k ?_ fd
        split at hk <;> exact hk
    cases heq
    have hpages : (s₁.proc i).pages =
        (if (s₁.proc i).parent = some i then { s₁.proc i with parent := some 0 } else s₁.proc i : Proc).pages := by
      split <;> rfl
    refine hpass.exchange (le_of_eq ?_) (hpass.sz i) rfl fun _ fd => ?_
    · dsimp only
      have hu : ¬(s₁.proc i).state = .unused := fun hc => hlive (h3.gone (.inl hc))
      rw [← hpages]
      simp only [Proc.pages, if_neg hu, if_neg (by simp : ¬ProcState.zombie = .unused)]
      split <;> rfl
    · dsimp only
      split <;> exact h4 fd (.inr (List.mem_finRange fd))

theorem dupFiles_spec (hij : i ≠ j) (hnodup : fds.Nodup) (hnone : ∀ fd ∈ fds, (s.proc j).ofile fd = none)
    (h : Files s s.opened) (hs : dupFiles i j fds s = some s') :
    Files s' s'.opened ∧ s'.owners = s.owners ∧ OnlyFiles j s s' ∧
      ∀ fd, (s'.proc j).ofile fd = if fd ∈ fds then (s.proc i).ofile fd else (s.proc j).ofile fd := by
  induction fds generalizing s with
  | nil =>
    cases hs
    exact ⟨h, rfl, .of_proc rfl, fun fd => (if_neg List.not_mem_nil).symm⟩
  | cons fd fds ih =>
    obtain ⟨hfd, hnodup⟩ := List.nodup_cons.mp hnodup
    unfold dupFiles at hs
    split at hs
    · rename_i hf
      obtain ⟨h1, h2, h3, h4⟩ := ih hnodup (fun fd' hfd' => hnone fd' (List.mem_cons_of_mem _ hfd')) h hs
      refine ⟨h1, h2, h3, fun fd' => (h4 fd').trans ?_⟩
      by_cases hfd' : fd' = fd
      · rw [hfd', if_neg hfd, if_pos List.mem_cons_self, hf, hnone fd List.mem_cons_self]
      · simp only [List.mem_cons, hfd', false_or]
    · rename_i f hf
      split at hs
      · cases hs
      · rename_i s₁ hdup
        have hfile : s₁.proc = s.proc ∧ s₁.owners = s.owners := by
          unfold filedup at hdup
          split at hdup <;> cases hdup
          exact ⟨rfl, rfl⟩
        obtain ⟨hproc, howners⟩ := hfile
        have hopened : (s₁.setOfile j fd (some f)).opened = f ::ₘ s.opened := by
          have := opened_setOfile s₁ j fd (some f)
          rw [congrFun hproc j, hnone fd List.mem_cons_self, held_none, add_zero, held_some, opened_congr hproc] at this
          rw [this, add_comm, Multiset.singleton_add]
        have hfiles : Files (s₁.setOfile j fd (some f)) (s₁.setOfile j fd (some f)).opened :=
          hopened ▸ (h.filedup hdup).congr rfl rfl
        have hmid : OnlyFiles j s (s₁.setOfile j fd (some f)) := (OnlyFiles.of_proc hproc).setOfile
        have hofile : ((s₁.setOfile j fd (some f)).proc j).ofile = Function.update (s.proc j).ofile fd (some f) := by
          rw [← congrFun hproc j]
          exact congrArg Proc.ofile (Function.update_self j _ s₁.proc)
        have hrest : ∀ fd' ∈ fds, ((s₁.setOfile j fd (some f)).proc j).ofile fd' = none := fun fd' hfd' => by
          have : fd' ≠ fd := fun hc => hfd (hc ▸ hfd')
          rw [hofile, Function.update_of_ne this]
          exact hnone fd' (List.mem_cons_of_mem _ hfd')
        obtain ⟨h1, h2, h3, h4⟩ := ih hnodup hrest hfiles hs
        refine ⟨h1, h2.trans (owners_setOfile.trans howners), hmid.trans h3, fun fd' => (h4 fd').trans ?_⟩
        rw [hofile, hmid.other i hij]
        by_cases hfd' : fd' = fd
        · rw [hfd', if_neg hfd, if_pos List.mem_cons_self, hf, Function.update_self]
        · rw [Function.update_of_ne hfd']
          simp only [List.mem_cons, hfd', false_or]

abbrev State.freeSlot (s : State) : Option (Fin nproc) :=
  (List.finRange nproc).find? fun j => (s.proc j).state = .unused

/-- `fork` by process `i` finds no slot, gives the slot up again or makes a child in it. -/
inductive Forked (s : State) (i : Fin nproc) : State → Prop
  | full : s.freeSlot = none → Forked s i s
  | failed {j free kstack pgdir} : s.freeSlot = some j →
      Forked s i ({ s with free }.setProc j { s.proc j with kstack, pgdir })
  | child {j s' kstack pgdir} : s.freeSlot = some j →
      s'.proc j = ⟨.runnable, kstack, pgdir, (s.proc i).sz, some i, (s.proc i).ofile⟩ →
      (∀ k ≠ j, s'.proc k = s.proc k) → Forked s i s'

theorem fork_spec (h : s.Consistent) (hlive : ¬(s.proc i).Gone) (hs : fork l s i = some s') :
    s'.Consistent ∧ Forked s i s' := by
  unfold fork at hs
  split at hs
  · rename_i hfind
    cases hs
    exact ⟨h, .full hfind⟩
  rename_i j hfind
  have hj : (s.proc j).state = .unused := by simpa using List.find?_some hfind
  have hpages : (s.proc j).pages = held (s.proc j).kstack := by
    rw [Proc.pages, if_pos hj, add_zero]
  have hclosed := h.closed j (.inl hj)
  split at hs
  · rename_i free halloc
    cases hs
    obtain ⟨h1, h2⟩ := kalloc_none halloc
    refine ⟨h.exchange ?_ (h.sz j) rfl fun _ => hclosed, .failed hfind⟩
    rw [h2, Proc.pages, if_pos hj]
    exact Multiset.zero_le _
  · rename_i kstack free halloc
    have hfree := kalloc_some halloc
    split at hs
    · cases hs
    · rename_i pgdir hpgdir
      split at hs
      · cases hs
      · rename_i free₁ hcopy
        have hle := copyuvm_le (h.sz i) hcopy
        rw [Option.elim_none, add_zero] at hle
        obtain ⟨free₂, hkfree, heq⟩ := Option.map_eq_some_iff.mp hs
        cases heq
        refine ⟨h.exchange ?_ (h.sz j) rfl fun _ => hclosed, .failed hfind⟩
        rw [kfree_eq hkfree, hfree, coe_cons, coe_cons]
        simp only [Proc.pages, held_none, if_pos hj, add_zero]
        exact (add_le_add_right hle _).trans (Multiset.le_add_right ..)
      · rename_i d free₁ hcopy
        have hle := copyuvm_le (h.sz i) hcopy
        rw [Option.elim_some] at hle
        generalize hnp :
          ({ s.proc j with
              kstack := some kstack, pgdir := some d, sz := (s.proc i).sz, parent := some i, state := .runnable } : Proc)
            = np at hs
        have hnew : ({ s with free := free₁ }.setProc j np).Consistent := by
          subst hnp
          refine h.exchange ?_ (h.sz i) rfl (by simp)
          rw [hfree, coe_cons]
          simp only [Proc.pages, held_some, Option.elim_some, if_neg (by simp : ¬ProcState.runnable = .unused)]
          calc (free₁ : Multiset Frame) + ({kstack} + d.pages) = {kstack} + (free₁ + d.pages) := by ac_rfl
            _ ≤ {kstack} + free := add_le_add_right hle _
            _ ≤ _ := Multiset.le_add_right ..
        have hself : ({ s with free := free₁ }.setProc j np).proc j = np := Function.update_self ..
        have hij : i ≠ j := by
          rintro rfl
          exact hlive (.inl hj)
        have hne {k : Fin nproc} (hk : k ≠ j) : ({ s with free := free₁ }.setProc j np).proc k = s.proc k :=
          Function.update_of_ne hk ..
        obtain ⟨h1, h2, h3, h4⟩ :=
          dupFiles_spec hij (List.nodup_finRange _) (fun fd _ => by rw [hself, ← hnp]; exact hclosed fd) hnew.files hs
        have hofile : (s'.proc j).ofile = (s.proc i).ofile :=
          funext fun fd => (h4 fd).trans ((if_pos (List.mem_finRange fd)).trans (by rw [hne hij]))
        have hchild : s'.proc j = ⟨.runnable, some kstack, some d, (s.proc i).sz, some i, (s.proc i).ofile⟩ := by
          rw [h3.self, hofile, hself, ← hnp]
        refine ⟨hnew.ofFiles ?_ h3 h2 h1, .child hfind hchild fun k hk => (h3.other k hk).trans (hne hk)⟩
        rw [hself, ← hnp]
        simp [Proc.Gone]

theorem State.OneOwner.not_pipe {p : Frame} (h : s.OneOwner) (hfree : s.free = p :: free) :
    p ∉ s.pipes.map Pipe.page := by
  intro hp
  have hle := Multiset.nodup_iff_count_le_one.mp h p
  have h1 : 0 < Multiset.count p (s.free : Multiset Frame) := by
    rw [Multiset.count_pos, hfree]
    exact Multiset.mem_coe.mpr List.mem_cons_self
  have h2 : 0 < Multiset.count p ((s.pipes.map Pipe.page : List Frame) : Multiset Frame) :=
    Multiset.count_pos.mpr (Multiset.mem_coe.mpr hp)
  simp only [State.owners, Multiset.count_add] at hle
  omega

/-- A call changed the files, and has the references in `loose` besides the descriptors. -/
structure Loose (s s' : State) (loose : Multiset (Fin nfile)) : Prop where
  files : Files s' (loose + s.opened)
  owners : s'.owners = s.owners
  proc : s'.proc = s.proc

theorem Loose.close (h : Loose s s₁ (f ::ₘ loose))
    (hc : fileclose l s₁ f = some s') : Loose s s' loose := by
  have hfiles := h.files
  rw [Multiset.cons_add] at hfiles
  obtain ⟨h1, h2, h3⟩ := hfiles.fileclose hc
  exact ⟨h1, h2.trans h.owners, h3.trans h.proc⟩

theorem Loose.alloc (h : Loose s s₁ loose)
    (ha : filealloc s₁ = (some f, s')) : Loose s s' (f ::ₘ loose) := by
  have hfiles := h.files.filealloc ha
  obtain ⟨-, rfl⟩ := filealloc_some ha
  exact ⟨by rwa [Multiset.cons_add], h.owners, h.proc⟩

theorem pipealloc_spec {o : Option (Fin nfile × Fin nfile)} (h : s.Consistent) (hs : pipealloc l s = some (o, s')) :
    Loose s s' (o.elim 0 fun f => f.1 ::ₘ f.2 ::ₘ 0) := by
  have h0 : Loose s s 0 := ⟨by rw [zero_add]; exact h.files, rfl, rfl⟩
  unfold pipealloc at hs
  split at hs
  · rename_i s₁ ha
    cases hs
    rw [filealloc_none ha]
    exact h0
  · rename_i f₀ s₁ ha
    have h1 := h0.alloc ha
    obtain ⟨hr₀, rfl⟩ := filealloc_some ha
    split at hs
    · rename_i s₂ ha₂
      obtain ⟨s₃, hc, heq⟩ := Option.map_eq_some_iff.mp hs
      cases heq
      rw [filealloc_none ha₂] at hc
      exact h1.close hc
    · rename_i f₁ s₂ ha₂
      have h2 := h1.alloc ha₂
      obtain ⟨hr₁, rfl⟩ := filealloc_some ha₂
      rw [show f₁ ::ₘ f₀ ::ₘ (0 : Multiset (Fin nfile)) = f₀ ::ₘ f₁ ::ₘ 0 from Multiset.cons_swap ..] at h2
      split at hs
      · obtain ⟨s₃, hc, hs⟩ := Option.bind_eq_some_iff.mp hs
        obtain ⟨s₄, hc', heq⟩ := Option.map_eq_some_iff.mp hs
        cases heq
        exact (h2.close hc).close hc'
      · rename_i p free halloc
        cases hs
        have hfree : s.free = p :: free := kalloc_some halloc
        have hne : f₀ ≠ f₁ := by
          rintro rfl
          rw [State.setFile] at hr₁
          simp at hr₁
        have hnew := h2.files.newPipe (p := p) hne
          (by simp [State.setFile, Function.update_of_ne hne]) (by simp [State.setFile]) (h.owners.not_pipe hfree)
        refine ⟨hnew.congr rfl rfl, ?_, rfl⟩
        simp only [State.owners, State.setFile, hfree, List.map_cons, coe_cons]
        ac_rfl

theorem fdalloc_spec {o : Option (Fin nofile)} (h : fdalloc s i f = (o, s')) :
    o.elim (s' = s) fun fd => (s.proc i).ofile fd = none ∧ s' = s.setOfile i fd (some f) := by
  unfold fdalloc at h
  split at h
  · cases h
    rfl
  · rename_i fd hfind
    cases h
    exact ⟨by simpa using List.find?_some hfind, rfl⟩

theorem Files.install (h : Files s (f ::ₘ loose + s.opened))
    (hfd : (s.proc i).ofile fd = none) : Files (s.setOfile i fd (some f)) (loose + (s.setOfile i fd (some f)).opened) := by
  have hopened := opened_setOfile s i fd (some f)
  rw [hfd, held_none, add_zero, held_some] at hopened
  rw [hopened, show loose + (s.opened + {f}) = f ::ₘ loose + s.opened by rw [← Multiset.singleton_add]; ac_rfl]
  exact h.congr rfl rfl

theorem setOfile_undo (hfd : (s.proc i).ofile fd = none) :
    ((s.setOfile i fd o).setOfile i fd none).proc = s.proc := by
  funext k
  by_cases hk : k = i
  · subst hk
    simp only [State.setOfile, State.setProc, Function.update_self, Function.update_idem]
    rw [← hfd, Function.update_eq_self]
  · exact (Function.update_of_ne hk ..).trans (Function.update_of_ne hk ..)

theorem Loose.consistent (hl : Loose s s' 0) (h : s.Consistent) (hlive : ¬(s.proc i).Gone) :
    s'.Consistent ∧ OnlyFiles i s s' := by
  have hfiles := hl.files
  rw [zero_add, ← opened_congr hl.proc] at hfiles
  exact ⟨h.ofFiles hlive (.of_proc hl.proc) hl.owners hfiles, .of_proc hl.proc⟩

theorem sysPipe_spec (h : s.Consistent) (hlive : ¬(s.proc i).Gone) (hs : sysPipe l s i = some s') :
    s'.Consistent ∧ OnlyFiles i s s' := by
  unfold sysPipe at hs
  split at hs
  · cases hs
  · rename_i s₁ hp
    cases hs
    exact (pipealloc_spec h hp).consistent h hlive
  · rename_i rf wf s₁ hp
    have hl := pipealloc_spec h hp
    rw [Option.elim_some] at hl
    split at hs
    · rename_i s₂ hfd
      obtain rfl := fdalloc_spec hfd
      obtain ⟨s₃, hc, hs⟩ := Option.bind_eq_some_iff.mp hs
      exact ((hl.close hc).close hs).consistent h hlive
    · rename_i fd₀ s₂ hfd
      obtain ⟨hnone, rfl⟩ := fdalloc_spec hfd
      split at hs
      · rename_i s₃ hfd'
        obtain rfl := fdalloc_spec hfd'
        have hproc := setOfile_undo (o := some rf) hnone
        have hl' : Loose s ((s₁.setOfile i fd₀ (some rf)).setOfile i fd₀ none) (rf ::ₘ wf ::ₘ 0) :=
          ⟨hl.files.congr rfl rfl, owners_setOfile.trans (owners_setOfile.trans hl.owners), hproc.trans hl.proc⟩
        obtain ⟨s₃, hc, hs⟩ := Option.bind_eq_some_iff.mp hs
        exact ((hl'.close hc).close hs).consistent h hlive
      · rename_i fd₁ s₃ hfd'
        obtain ⟨hnone', rfl⟩ := fdalloc_spec hfd'
        cases hs
        have hfiles := hl.files
        rw [← opened_congr hl.proc] at hfiles
        have hfiles := Files.install (hfiles.install hnone) hnone'
        rw [zero_add] at hfiles
        have hsame : OnlyFiles i s ((s₁.setOfile i fd₀ (some rf)).setOfile i fd₁ (some wf)) :=
          (OnlyFiles.of_proc hl.proc).setOfile.setOfile
        exact ⟨h.ofFiles hlive hsame (owners_setOfile.trans (owners_setOfile.trans hl.owners)) hfiles, hsame⟩

theorem step_consistent {e : Fin nproc × Op} (h : s.Consistent) (hs : step l s e = some s') : s'.Consistent := by
  unfold step at hs
  split at hs
  · cases hs
  · rename_i hlive
    split at hs
    · exact (fork_spec h hlive hs).1
    · exact exec_consistent h hlive hs
    · exact growproc_consistent h hlive hs
    · exact (sysPipe_spec h hlive hs).1
    · exact (sysClose_spec h hlive hs).1
    · exact exit_consistent h hlive hs
    · exact wait_consistent h hs

end

/-! ### The boot -/

section
variable {l : KernelLayout} {pages free free' : List Frame}

theorem foldlM_kfree (h : pages.foldlM (kfree l) free = some free') :
    (free' : Multiset Frame) = pages + free := by
  induction pages generalizing free with
  | nil =>
    cases h
    rw [Multiset.coe_nil, zero_add]
  | cons p pages ih =>
    obtain ⟨free₁, h₁, h⟩ := Option.bind_eq_some_iff.mp h
    rw [ih h, kfree_eq h₁, coe_cons, coe_cons]
    ac_rfl

theorem freerange_pages {vstart vend : Nat} (h : freerange l free vstart vend = some free') :
    ∃ pages : List Frame, pages.Nodup ∧ (∀ p ∈ pages, pgroundup vstart / pgsize ≤ p ∧ p < vend / pgsize) ∧
      (free' : Multiset Frame) = pages + free := by
  refine ⟨_, List.nodup_range' .., fun p hp => ?_, foldlM_kfree h⟩
  obtain ⟨h1, h2⟩ := List.mem_range'_1.mp hp
  have hlt {a b c : Nat} (h1 : a ≤ c) (h2 : c < a + (b - a)) : c < b := by omega
  exact ⟨h1, hlt h1 h2⟩

theorem boot_nodup {pages' : List Frame} (h : pages.Nodup) (h' : pages'.Nodup)
    (hlt : ∀ p ∈ pages, p < 4 * 1024 * 1024 / pgsize) (hge : ∀ p ∈ pages', pgroundup (4 * 1024 * 1024) / pgsize ≤ p) :
    ((pages' : Multiset Frame) + pages).Nodup := by
  rw [Multiset.coe_add, Multiset.coe_nodup]
  refine h'.append h fun p hp hp' => ?_
  exact absurd (hlt p hp') (Nat.not_lt.mpr (hge p hp))

theorem firstState_consistent {kpgdir pgdir : Pgdir} {kstack : Frame} {sz : Nat} (hsz : sz ≤ kernbase)
    (h : ((free : Multiset Frame) + kpgdir.pages + ({kstack} + pgdir.pages)).Nodup) :
    (firstState free kpgdir kstack pgdir sz).Consistent := by
  have hproc : ∑ i, ((firstState free kpgdir kstack pgdir sz).proc i).pages = {kstack} + pgdir.pages := by
    refine (Finset.sum_eq_single 0 (fun i _ hi => ?_) (fun h => absurd (Finset.mem_univ _) h)).trans rfl
    simp only [firstState, if_neg hi]
    rfl
  have hofile (i : Fin nproc) (fd : Fin nofile) : ((firstState free kpgdir kstack pgdir sz).proc i).ofile fd = none := by
    simp only [firstState]
    split <;> rfl
  refine ⟨?_, fun i => ?_, ⟨fun f => ?_, fun _ _ => rfl, nofun, nofun, List.nodup_nil⟩, fun i _ fd => hofile i fd⟩
  · rw [State.OneOwner, State.owners, hproc]
    simpa [firstState] using h
  · simp only [firstState]
    split
    · exact hsz
    · exact Nat.zero_le _
  · rw [State.opened, Finset.sum_eq_zero fun i _ => Finset.sum_eq_zero fun fd _ => by rw [hofile, held_none]]
    rfl

theorem boot_first {s : State} (h : boot l = some s) :
    s.Consistent ∧ ∃ free kpgdir kstack pgdir, s = firstState free kpgdir kstack pgdir pgsize := by
  unfold boot at h
  obtain ⟨free₁, h₁, h⟩ := Option.bind_eq_some_iff.mp h
  obtain ⟨⟨kp, free₂⟩, h₂, h⟩ := Option.bind_eq_some_iff.mp h
  cases kp with
  | none => cases h
  | some kpgdir =>
    obtain ⟨free₃, h₃, h⟩ := Option.bind_eq_some_iff.mp h
    split at h
    · rename_i kstack free₄ ha₄
      obtain ⟨⟨pd, free₅⟩, h₅, h⟩ := Option.bind_eq_some_iff.mp h
      cases pd with
      | none => cases h
      | some pgdir =>
        dsimp only at h
        split at h
        · rename_i mem free₆ ha₆
          obtain ⟨⟨r, m⟩, hm, h⟩ := Option.bind_eq_some_iff.mp h
          cases r with
          | false => cases h
          | true =>
            cases h
            -- What is taken from the free list is where it went, at every step.
            obtain ⟨pages, hn, hp, e₁⟩ := freerange_pages h₁
            obtain ⟨pages', hn', hp', e₃⟩ := freerange_pages h₃
            have e₂ := (setupkvm_some h₂).2.1
            have e₅ := (setupkvm_some h₅).2.1
            rw [mappages_page (by decide) (by decide)] at hm
            have hmap := (mappage_true hm (by decide)).pages
            rw [if_pos (by decide), Nat.mul_div_cancel _ (by decide), Space.pages, Space.pages] at hmap
            have hall : (pages' : Multiset Frame) + pages = m.free + kpgdir.pages + ({kstack} + m.dir.pages) := by
              calc (pages' : Multiset Frame) + pages = pages' + free₁ := by rw [e₁, Multiset.coe_nil, add_zero]
                _ = free₃ + kpgdir.pages := by
                  rw [e₂, e₃]
                  ac_rfl
                _ = {kstack} + (free₅ + pgdir.pages) + kpgdir.pages := by rw [kalloc_some ha₄, coe_cons, e₅]
                _ = {kstack} + (free₆ + pgdir.pages + {mem}) + kpgdir.pages := by
                  rw [kalloc_some ha₆, coe_cons]
                  ac_rfl
                _ = _ := by
                  rw [← hmap]
                  ac_rfl
            refine ⟨firstState_consistent (by decide) (hall ▸ ?_), _, _, _, _, rfl⟩
            exact boot_nodup hn hn' (fun p h => (hp p h).2) fun p h => (hp' p h).1
        · cases h
    · cases h

end

/-- In every state of every run, no physical page is in two places or twice in one. The state after the boot is one to
    start from. -/
theorem one_owner {l : KernelLayout} {s₀ s : State} {tr : List (State × (Fin nproc × Op))} (h₀ : s₀.Consistent)
    (hr : Run (OfStep (step l)) s₀ tr s) : Always State.OneOwner tr s :=
  (hr.always (G := fun _ _ => True) h₀ (fun _ _ => trivial) fun h _ hs => step_consistent h hs).mono fun _ h => h.owners

def smallState : State := firstState [300, 301, 302] ⟨50, fun _ => none⟩ 60 ⟨61, fun _ => none⟩ 0

theorem smallState_consistent : smallState.Consistent := by
  have hdir (v : Frame) : (Pgdir.mk v fun _ => none).pages = {v} := by
    have := pages_new v []
    rwa [Space.pages, Multiset.coe_nil, zero_add, Multiset.coe_singleton] at this
  refine firstState_consistent (Nat.zero_le _) ?_
  rw [hdir, hdir]
  decide

/-- A process makes a pipe, closes both ends and grows by a page: the page of the pipe is used again. -/
theorem one_owner_pipe : ∃ tr s, Run (OfStep (step exampleLayout)) smallState tr s ∧ s.free = [302] ∧ s.pipes = [] ∧
    (s.proc 0).sz = 4096 ∧ Always State.OneOwner tr s := by
  obtain ⟨tr, s, hr, -, h1, h2, h3⟩ := Run.exists_of_traceOf (f := step exampleLayout) smallState
    [(0, .pipe), (0, .close 0), (0, .close 1), (0, .sbrk 4096)]
    (fun _ s => s.free = [302] ∧ s.pipes = [] ∧ (s.proc 0).sz = 4096) (by decide +kernel)
  exact ⟨tr, s, hr, h1, h2, h3, one_owner smallState_consistent hr⟩

end Xv6.Pages
