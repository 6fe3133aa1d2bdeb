import Xv6.Lib.Writes
import Xv6.Log

/-! The log makes transactions atomic. Until the header is written, the home blocks are as the transaction found them;
    from then on the copies in the log can be installed again and again. -/

namespace Xv6.Log
open Lib

/-! ### Transactions -/

/-- The blocks that a transaction writes, in the order of its `log_write` calls. -/
abbrev Tx := List (Nat × Block)

/-- A machine with the transactions that have taken effect, and the one that is under way. -/
structure Journal where
  machine : Machine
  txs : List Tx
  cur : Tx

namespace Journal

def finish (s : Journal) : List Tx := if s.cur.isEmpty then s.txs else s.txs ++ [s.cur]

/-- A transaction is counted with the last write of its `commit`, or of the recovery that finds its header written; a
    recovery that finds the header empty drops it. -/
def step (A : Area) (s : Journal) (e : Event A) : Option Journal :=
  (s.machine.step A e).map fun m =>
    match e with
    | .logWrite b v => ⟨m, s.txs, s.cur ++ [(b.no, v)]⟩
    | .commit | .crash => ⟨m, s.txs, s.cur⟩
    | .recover => ⟨m, s.txs, if m.lh = [] then [] else s.cur⟩
    | .write => if m.pc = .idle then ⟨m, s.finish, []⟩ else ⟨m, s.txs, s.cur⟩

/-- A machine that is up, with the disk `d` and nothing written. -/
def init (d : Disk) : Journal := ⟨⟨d, fun _ => none, [], .idle⟩, [], []⟩

/-- The home blocks after the transactions that have taken effect. -/
def before (d : Disk) (s : Journal) : Disk := applyWrites d s.txs.flatten

/-- The home blocks after the transaction under way as well. -/
def after (d : Disk) (s : Journal) : Disk := applyWrites (s.before d) s.cur

end Journal

/-! ### Headers -/

def HeadIs (A : Area) (d : Disk) (lh : List Nat) : Prop := ∃ hb, d A.start = encodeHead lh hb

variable {A : Area} {d : Disk} {lh : List Nat}

theorem headIs_nil : HeadIs A d [] ↔ d A.start 0 = 0 := by
  constructor
  · rintro ⟨hb, h⟩
    simp [h, encodeHead]
  · intro h
    refine ⟨d A.start, funext fun i => ?_⟩
    by_cases hi : i = 0
    · subst hi
      simp [encodeHead, h]
    · simp [encodeHead, hi]

theorem decodeHead_encodeHead (hb : Block) (hlen : lh.length ≤ logsize) (hfits : ∀ b ∈ lh, b < 2 ^ 32) :
    decodeHead (encodeHead lh hb) = lh := by
  simp only [logsize, maxopblocks] at hlen
  have hn : (encodeHead lh hb 0).toInt.toNat = lh.length := by
    have htoNat : (BitVec.ofNat 32 lh.length).toNat = lh.length := by
      rw [BitVec.toNat_ofNat]
      omega
    simp only [encodeHead, if_true]
    rw [BitVec.toInt_eq_toNat_of_lt (by omega), htoNat, Int.toNat_natCast]
  apply List.ext_getElem
  · simp [decodeHead, hn]
  · intro i hi hi'
    have hlt : i + 1 < 128 := by omega
    have hfit := hfits lh[i] (List.getElem_mem hi')
    have hentry : encodeHead lh hb ⟨i + 1, hlt⟩ = BitVec.ofNat 32 lh[i] := by simp [encodeHead, hi']
    have hword : (BitVec.ofNat 32 lh[i]).toNat = lh[i] := by rw [BitVec.toNat_ofNat, Nat.mod_eq_of_lt hfit]
    simp only [decodeHead, List.getElem_map, List.getElem_range, dif_pos hlt, hentry, hword]

instance (A : Area) (b : Nat) : Decidable (A.Home b) := inferInstanceAs (Decidable (_ ∨ _))

theorem HeadIs.decode (h : HeadIs A d lh) (hlen : lh.length ≤ logsize)
    (hfits : ∀ b ∈ lh, b < 2 ^ 32) : decodeHead (d A.start) = lh := by
  obtain ⟨hb, h⟩ := h
  rw [h, decodeHead_encodeHead hb hlen hfits]

/-! ### The invariant -/

/-- `lh` lists the blocks, all outside the log, in which `T` may differ from `H`. -/
structure Entries (A : Area) (lh : List Nat) (H T : Disk) : Prop where
  nodup : lh.Nodup
  logsize : lh.length ≤ logsize
  size : lh.length ≤ A.size - 1
  home : ∀ b ∈ lh, A.Home b
  fits : ∀ b ∈ lh, b < 2 ^ 32
  others : ∀ b, b ∉ lh → T b = H b

/-- The log holds the contents `T` of the first `n` blocks of `lh`. -/
def Copied (A : Area) (d : Disk) (lh : List Nat) (T : Disk) (n : Nat) : Prop :=
  ∀ i b, i < n → lh[i]? = some b → d (A.start + i + 1) = T b

/-- The log holds a transaction that leads to `T`, and the first `n` of its blocks are installed. -/
structure Installing (A : Area) (d : Disk) (lh : List Nat) (T : Disk) (n : Nat) : Prop where
  head : HeadIs A d lh
  copied : Copied A d lh T lh.length
  installed : ∀ b, A.Home b → b ∉ lh ∨ (∃ i < n, lh[i]? = some b) → d b = T b

/-- The log is empty, and the home blocks are `H`. -/
structure Clean (A : Area) (d H : Disk) : Prop where
  head : HeadIs A d []
  home : ∀ b, A.Home b → d b = H b

/-- The cache holds the new contents of the blocks of `lh`. -/
def Cached (m : Machine) (T : Disk) : Prop := ∀ b, m.cache b = if b ∈ m.lh then some (T b) else none

/-- The transaction under way is in the cache, and not on the disk. -/
structure Ready (A : Area) (m : Machine) (H T : Disk) : Prop where
  entries : Entries A m.lh H T
  clean : Clean A m.disk H
  cached : Cached m T

/-- What holds at each point of `commit` and of recovery, with the home blocks `H` before the transaction under way and
    `T` after it. -/
inductive MachineInv (A : Area) (m : Machine) (H T : Disk) : Prop
  | idle (hpc : m.pc = .idle) (ready : Ready A m H T)
  | writeLog {tail : Nat} (hpc : m.pc = .writeLog tail) (ready : Ready A m H T) (copied : Copied A m.disk m.lh T tail)
  | writeHead (hpc : m.pc = .writeHead) (ready : Ready A m H T) (copied : Copied A m.disk m.lh T m.lh.length)
  | installTrans {tail : Nat} (hpc : m.pc = .installTrans tail) (entries : Entries A m.lh H T)
      (installing : Installing A m.disk m.lh T tail)
      (rest : ∀ b, m.cache b ≠ none → ∃ i, tail ≤ i ∧ m.lh[i]? = some b)
  | downClean (hpc : m.pc = .down) (empty : m.cache = fun _ => none) (clean : Clean A m.disk H)
  | downLogged {lh : List Nat} (hpc : m.pc = .down) (empty : m.cache = fun _ => none) (hlh : lh ≠ [])
      (entries : Entries A lh H T) (installing : Installing A m.disk lh T 0)

section Machine
variable {A : Area} {m m' : Machine} {d H T : Disk} {lh : List Nat} {b i n tail : Nat} {v : Block}

theorem Area.home_ne_start (h : A.Home b) : b ≠ A.start := by
  have := A.pos
  rcases h with h | h <;> omega

theorem Area.home_ne_copy (h : A.Home b) (hi : i < A.size - 1) : b ≠ A.start + i + 1 := by
  rcases h with h | h <;> omega

/-! ### Filling the cache -/

theorem Entries.nil (A : Area) (H : Disk) : Entries A [] H H := by
  constructor <;> simp

theorem Entries.logWrite (h : Entries A lh H T) (hhome : A.Home b) (hfits : b < 2 ^ 32)
    (hroom : ¬(lh.length ≥ Xv6.logsize ∨ lh.length ≥ A.size - 1)) (v : Block) :
    Entries A (if b ∈ lh then lh else lh ++ [b]) H (Function.update T b v) := by
  have hlen := length_append_new_le (l := lh) (b := b)
  refine ⟨nodup_append_new h.nodup, by omega, by omega, fun b' hb' => ?_, fun b' hb' => ?_, fun b' hb' => ?_⟩
  · rcases mem_append_new.mp hb' with hlh | rfl
    · exact h.home b' hlh
    · exact hhome
  · rcases mem_append_new.mp hb' with hlh | rfl
    · exact h.fits b' hlh
    · exact hfits
  · obtain ⟨hlh, hne⟩ := not_or.mp (mt mem_append_new.mpr hb')
    rw [Function.update_of_ne hne]
    exact h.others b' hlh

theorem Ready.logWrite (h : Ready A m H T) (hhome : A.Home b) (hfits : b < 2 ^ 32) (hs : m.logWrite A b v = some m') :
    m'.pc = m.pc ∧ Ready A m' H (Function.update T b v) := by
  simp only [Machine.logWrite] at hs
  split at hs
  · cases hs
  · rename_i hroom
    obtain rfl := Option.some.inj hs
    refine ⟨rfl, h.entries.logWrite hhome hfits hroom v, h.clean, fun b' => ?_⟩
    have hcached := h.cached b'
    by_cases hb' : b' = b
    · subst hb'
      by_cases hlh : b' ∈ m.lh <;> simp [hlh]
    · by_cases hlh : b ∈ m.lh <;> simp [hlh, hb', hcached]

/-! ### Writing the log -/

theorem Ready.cache_log (h : Ready A m H T) (hb : ¬A.Home b) : m.cache b = none := by
  rw [h.cached b, if_neg fun hlh => hb (h.entries.home b hlh)]

theorem not_home_copy (hi : i < A.size - 1) : ¬A.Home (A.start + i + 1) := fun h => Area.home_ne_copy h hi rfl

theorem Ready.copy (h : Ready A m H T) (hc : Copied A m.disk m.lh T tail) (hb : m.lh[tail]? = some b) :
    Ready A (m.bwrite (A.start + tail + 1) (m.bread b)) H T ∧
      Copied A (m.bwrite (A.start + tail + 1) (m.bread b)).disk m.lh T (tail + 1) := by
  obtain ⟨htail, hget⟩ := List.getElem?_eq_some_iff.mp hb
  have hmem : b ∈ m.lh := hget ▸ List.getElem_mem htail
  have hlog : ¬A.Home (A.start + tail + 1) := not_home_copy (Nat.lt_of_lt_of_le htail h.entries.size)
  have hread : m.bread b = T b := by simp [Machine.bread, h.cached b, hmem]
  have hcache : (m.bwrite (A.start + tail + 1) (m.bread b)).cache = m.cache := by
    simp only [Machine.bwrite]
    rw [← h.cache_log hlog, Function.update_eq_self]
  refine ⟨⟨h.entries, ⟨?_, fun b' hb' => ?_⟩, fun b' => ?_⟩, ?_⟩
  · obtain ⟨hb', hhead⟩ := h.clean.head
    refine ⟨hb', ?_⟩
    rw [← hhead]
    exact Function.update_of_ne (by omega) ..
  · have hne : b' ≠ A.start + tail + 1 := fun e => hlog (e ▸ hb')
    rw [← h.clean.home b' hb']
    exact Function.update_of_ne hne ..
  · rw [hcache]
    exact h.cached b'
  · intro i b' hi hi'
    by_cases hit : i = tail
    · subst hit
      obtain rfl := Option.some.inj (hb.symm.trans hi')
      rw [← hread]
      exact Function.update_self ..
    · rw [← hc i b' (by omega) hi']
      exact Function.update_of_ne (by omega) ..

theorem Ready.writeHead (h : Ready A m H T) (hc : Copied A m.disk m.lh T m.lh.length) (hb : Block) :
    Installing A (m.bwrite A.start (encodeHead m.lh hb)).disk m.lh T 0 := by
  refine ⟨⟨hb, Function.update_self ..⟩, fun i b hi hb => ?_, fun b hb hor => ?_⟩
  · rw [← hc i b hi hb]
    exact Function.update_of_ne (by omega) ..
  · have hlh : b ∉ m.lh := hor.resolve_right (by simp)
    rw [h.entries.others b hlh, ← h.clean.home b hb]
    exact Function.update_of_ne (Area.home_ne_start hb) ..

/-! ### Installing -/

theorem Installing.install (h : Installing A d lh T tail) (he : Entries A lh H T) (hb : lh[tail]? = some b) :
    Installing A (Function.update d b (T b)) lh T (tail + 1) := by
  obtain ⟨htail, hget⟩ := List.getElem?_eq_some_iff.mp hb
  have hhome : A.Home b := he.home b (hget ▸ List.getElem_mem htail)
  refine ⟨?_, fun i b' hi hi' => ?_, fun b' hb' hor => ?_⟩
  · obtain ⟨hb', hhead⟩ := h.head
    refine ⟨hb', ?_⟩
    rw [← hhead]
    exact Function.update_of_ne (Area.home_ne_start hhome).symm ..
  · rw [← h.copied i b' hi hi']
    exact Function.update_of_ne (Area.home_ne_copy hhome (Nat.lt_of_lt_of_le hi he.size)).symm ..
  · by_cases hbb : b' = b
    · subst hbb
      exact Function.update_self ..
    · rw [Function.update_of_ne hbb]
      refine h.installed b' hb' (hor.imp_right ?_)
      rintro ⟨i, hi, hi'⟩
      refine ⟨i, ?_, hi'⟩
      have hne : i ≠ tail := fun e => hbb (Option.some.inj ((e ▸ hi').symm.trans hb))
      omega

theorem Installing.clear (h : Installing A d lh T tail) (htail : lh[tail]? = none) (hb : Block) :
    Clean A (Function.update d A.start (encodeHead [] hb)) T := by
  refine ⟨⟨hb, Function.update_self ..⟩, fun b hhome => ?_⟩
  rw [Function.update_of_ne (Area.home_ne_start hhome)]
  refine h.installed b hhome ?_
  by_cases hlh : b ∈ lh
  · obtain ⟨i, hi, hget⟩ := List.getElem_of_mem hlh
    have hlen := List.getElem?_eq_none_iff.mp htail
    exact .inr ⟨i, by omega, by rw [List.getElem?_eq_getElem hi, hget]⟩
  · exact .inl hlh

theorem Installing.restart (h : Installing A d lh T n) : Installing A d lh T 0 :=
  ⟨h.head, h.copied, fun b hb hor => h.installed b hb (.inl (hor.resolve_right (by simp)))⟩

theorem Clean.installing (h : Clean A d H) : Installing A d [] H 0 :=
  ⟨h.head, fun i b hi => by simp at hi, fun b hb _ => h.home b hb⟩

/-! ### The steps of the machine -/

theorem MachineInv.ready_of_idle (h : MachineInv A m H T) (hidle : m.pc = .idle) : Ready A m H T := by
  cases h with
  | idle _ ready => exact ready
  | writeLog hpc | writeHead hpc | installTrans hpc | downClean hpc | downLogged hpc => simp [hpc] at hidle

theorem Ready.commit (ready : Ready A m H T) (hidle : m.pc = .idle) : MachineInv A m.commit H T := by
  simp only [Machine.commit]
  split
  · exact .idle hidle ready
  · exact .writeLog rfl ⟨ready.entries, ready.clean, ready.cached⟩ fun i b hi => by simp at hi

theorem MachineInv.crash (h : MachineInv A m H T) : MachineInv A m.crash H T := by
  cases h with
  | idle _ ready => exact .downClean rfl rfl ready.clean
  | writeLog _ ready => exact .downClean rfl rfl ready.clean
  | writeHead _ ready => exact .downClean rfl rfl ready.clean
  | installTrans _ entries installing =>
    by_cases hlh : m.lh = []
    · -- A recovery that had nothing to install: the home blocks are as they were.
      refine .downClean rfl rfl ⟨hlh ▸ installing.head, fun b hb => ?_⟩
      have hnot : b ∉ m.lh := by simp [hlh]
      exact (installing.installed b hb (.inl hnot)).trans (entries.others b hnot)
    · exact .downLogged rfl rfl hlh entries installing.restart
  | downClean _ _ clean => exact .downClean rfl rfl clean
  | downLogged _ _ hlh entries installing => exact .downLogged rfl rfl hlh entries installing

/-- A boot finds the header empty, and the transaction is dropped; or it finds the whole transaction. -/
theorem MachineInv.recover (h : MachineInv A m H T) (hdown : m.pc = .down) :
    (m.recover A).lh = [] ∧ MachineInv A (m.recover A) H H ∨
      (m.recover A).lh ≠ [] ∧ MachineInv A (m.recover A) H T := by
  cases h with
  | downClean _ empty clean =>
    have hread : m.bread A.start = m.disk A.start := by simp [Machine.bread, empty]
    have hlh : (m.recover A).lh = [] := by
      simp only [Machine.recover, hread]
      exact clean.head.decode (by simp) (by simp)
    refine .inl ⟨hlh, .installTrans rfl ?_ ?_ fun b hb => absurd (congrFun empty b) hb⟩
    · rw [hlh]
      exact .nil A H
    · rw [hlh]
      exact clean.installing
  | @downLogged lh _ empty hne entries installing =>
    have hread : m.bread A.start = m.disk A.start := by simp [Machine.bread, empty]
    have hlh : (m.recover A).lh = lh := by
      simp only [Machine.recover, hread]
      exact installing.head.decode entries.logsize entries.fits
    refine .inr ⟨hlh ▸ hne, .installTrans rfl ?_ ?_ fun b hb => absurd (congrFun empty b) hb⟩
    · rw [hlh]
      exact entries
    · rw [hlh]
      exact installing
  | idle hpc | writeLog hpc | writeHead hpc | installTrans hpc => simp [hpc] at hdown

theorem Machine.cache_bwrite {b' : Nat} (h : Function.update m.cache b' none b ≠ none) :
    b ≠ b' ∧ m.cache b ≠ none := by
  rw [Function.update_apply] at h
  split at h
  · exact absurd rfl h
  · rename_i hne
    exact ⟨hne, h⟩

theorem Ready.mem_of_cache (h : Ready A m H T) (hb : m.cache b ≠ none) : b ∈ m.lh := by
  by_contra hnot
  exact hb (by rw [h.cached b, if_neg hnot])

theorem Ready.writeLog_next (ready : Ready A m H T) (copied : Copied A m.disk m.lh T tail) (hb : m.lh[tail]? = some b) :
    MachineInv A { m.bwrite (A.start + tail + 1) (m.bread b) with
      pc := if tail + 1 < m.lh.length then .writeLog (tail + 1) else .writeHead } H T := by
  obtain ⟨hready, hcopied⟩ := ready.copy copied hb
  by_cases hlast : tail + 1 < m.lh.length
  · exact .writeLog (if_pos hlast) ⟨hready.entries, hready.clean, hready.cached⟩ hcopied
  · refine .writeHead (if_neg hlast) ⟨hready.entries, hready.clean, hready.cached⟩ fun i b hi => ?_
    exact hcopied i b (Nat.lt_of_lt_of_le hi (Nat.le_of_not_lt hlast))

theorem Ready.writeHead_next (ready : Ready A m H T) (copied : Copied A m.disk m.lh T m.lh.length) (hb : Block) :
    MachineInv A { m.bwrite A.start (encodeHead m.lh hb) with pc := .installTrans 0 } H T := by
  refine .installTrans rfl ready.entries (ready.writeHead copied hb) fun b hcache => ?_
  obtain ⟨i, hi, hget⟩ := List.getElem_of_mem (ready.mem_of_cache (Machine.cache_bwrite hcache).2)
  exact ⟨i, Nat.zero_le i, by simp [Machine.bwrite, hi, hget]⟩

section Install
variable (rest : ∀ b, m.cache b ≠ none → ∃ i, tail ≤ i ∧ m.lh[i]? = some b)
include rest

theorem Installing.bread_copy (entries : Entries A m.lh H T) (installing : Installing A m.disk m.lh T tail)
    (hb : m.lh[tail]? = some b) : m.bread (A.start + tail + 1) = T b := by
  obtain ⟨htail, -⟩ := List.getElem?_eq_some_iff.mp hb
  have hcache : m.cache (A.start + tail + 1) = none := by
    by_contra hne
    obtain ⟨i, -, hi⟩ := rest _ hne
    exact not_home_copy (Nat.lt_of_lt_of_le htail entries.size) (entries.home _ (List.mem_of_getElem? hi))
  rw [Machine.bread, hcache]
  exact installing.copied tail b htail hb

theorem Installing.install_next (entries : Entries A m.lh H T) (installing : Installing A m.disk m.lh T tail)
    (hb : m.lh[tail]? = some b) :
    MachineInv A { m.bwrite b (m.bread (A.start + tail + 1)) with pc := .installTrans (tail + 1) } H T := by
  refine .installTrans rfl entries ?_ fun b' hcache => ?_
  · rw [installing.bread_copy rest entries hb]
    exact installing.install entries hb
  · obtain ⟨hne, hcache⟩ := Machine.cache_bwrite hcache
    obtain ⟨i, hi, hget⟩ := rest b' hcache
    have hit : i ≠ tail := fun e => hne (Option.some.inj ((e ▸ hget).symm.trans hb))
    exact ⟨i, by omega, hget⟩

/-- `write_head` of no entries, once all are installed: the transaction is in effect and its log is gone. -/
theorem Installing.clear_next (installing : Installing A m.disk m.lh T tail) (hnone : m.lh[tail]? = none) (hb : Block) :
    MachineInv A { m.bwrite A.start (encodeHead [] hb) with lh := [], pc := .idle } T T := by
  refine .idle rfl ⟨.nil A T, installing.clear hnone hb, fun b => ?_⟩
  have hcache : m.cache b = none := by
    by_contra hne
    obtain ⟨i, hi, hget⟩ := rest b hne
    have hlen := List.getElem?_eq_none_iff.mp hnone
    simp [List.getElem?_eq_none (Nat.le_trans hlen hi)] at hget
  simp [Machine.bwrite, Function.update_apply, hcache]

end Install

/-- A block write brings the machine back to `idle` with the transaction in effect, or a step closer. -/
theorem MachineInv.write (h : MachineInv A m H T) (hs : m.write A = some m') :
    m'.pc = .idle ∧ MachineInv A m' T T ∨ m'.pc ≠ .idle ∧ MachineInv A m' H T := by
  cases h with
  | idle hpc | downClean hpc | downLogged hpc => simp [Machine.write, hpc] at hs
  | @writeLog tail hpc ready copied =>
    simp only [Machine.write, hpc] at hs
    split at hs
    · cases hs
    · rename_i b hb
      obtain rfl := Option.some.inj hs
      refine .inr ⟨?_, ready.writeLog_next copied hb⟩
      split <;> simp
  | writeHead hpc ready copied =>
    simp only [Machine.write, hpc] at hs
    obtain rfl := Option.some.inj hs
    exact .inr ⟨by simp, ready.writeHead_next copied _⟩
  | @installTrans tail hpc entries installing rest =>
    simp only [Machine.write, hpc] at hs
    split at hs
    · rename_i b hb
      obtain rfl := Option.some.inj hs
      exact .inr ⟨by simp, installing.install_next rest entries hb⟩
    · rename_i hnone
      obtain rfl := Option.some.inj hs
      exact .inl ⟨rfl, installing.clear_next rest hnone _⟩

end Machine

/-! ### Runs -/

namespace Journal
variable {A : Area} {s s' : Journal} {e : Event A} {d : Disk} {txs : List Tx} {cur : Tx}

def Inv (A : Area) (d : Disk) (s : Journal) : Prop := MachineInv A s.machine (s.before d) (s.after d)

theorem before_finish (d : Disk) (s : Journal) (m : Machine) : before d ⟨m, s.finish, []⟩ = s.after d := by
  simp only [before, after, finish]
  cases hcur : s.cur with
  | nil => simp
  | cons w ws => simp [applyWrites_append]

theorem Inv.step (h : Inv A d s) (hs : s.step A e = some s') : Inv A d s' := by
  obtain ⟨m, hm, rfl⟩ := Option.map_eq_some_iff.mp hs
  cases e with
  | logWrite b v =>
    simp only [Machine.step] at hm
    split at hm
    · rename_i hidle
      have hafter : after d ⟨m, s.txs, s.cur ++ [(b.no, v)]⟩ = Function.update (s.after d) b.no v := applyWrites_snoc ..
      obtain ⟨hpc, hready⟩ := (MachineInv.ready_of_idle h hidle).logWrite b.home b.fits hm
      exact .idle (hpc.trans hidle) (hafter ▸ hready)
    · cases hm
  | commit =>
    simp only [Machine.step] at hm
    split at hm
    · rename_i hidle
      obtain rfl := Option.some.inj hm
      exact (MachineInv.ready_of_idle h hidle).commit hidle
    · cases hm
  | write =>
    rcases MachineInv.write h hm with ⟨hpc, hinv⟩ | ⟨hpc, hinv⟩
    · simp only [hpc, if_true, Inv, after, before_finish, applyWrites_nil]
      exact hinv
    · simp only [hpc, if_false]
      exact hinv
  | crash =>
    obtain rfl := Option.some.inj hm
    exact MachineInv.crash h
  | recover =>
    simp only [Machine.step] at hm
    split at hm
    · rename_i hdown
      obtain rfl := Option.some.inj hm
      rcases MachineInv.recover h hdown.1 with ⟨hlh, hinv⟩ | ⟨hlh, hinv⟩
      · simp only [hlh, if_true]
        exact hinv
      · simp only [hlh, if_false]
        exact hinv
    · cases hm

theorem Inv.run {tr : List (Journal × Event A)} (h : Inv A d s) (hr : Run (OfStep (Journal.step A)) s tr s') :
    Inv A d s' :=
  hr.invariant h fun hI hs => hI.step hs

theorem inv_init (hd : d A.start 0 = 0) : Inv A d (init d) :=
  .idle rfl ⟨.nil A d, ⟨headIs_nil.mpr hd, fun _ _ => rfl⟩, fun _ => rfl⟩

theorem Inv.idle (h : Inv A d s) (hidle : s.machine.pc = .idle) :
    (∀ b, A.Home b → s.machine.disk b = s.before d b) ∧ s.machine.disk A.start 0 = 0 := by
  have clean := (MachineInv.ready_of_idle h hidle).clean
  exact ⟨clean.home, headIs_nil.mp clean.head⟩

/-! ### Stops and recoveries -/

/-- A block write, a stop or a boot: what can happen without a new transaction. -/
def recovering : Event A → Bool
  | .write | .crash | .recover => true
  | .logWrite _ _ | .commit => false

def Recovering (_ : Journal) (e : Event A) : Prop := recovering e = true

instance (s : Journal) (e : Event A) : Decidable (Recovering s e) := inferInstanceAs (Decidable (_ = true))

/-- What can have become of the transaction `cur` that was under way after `txs`. -/
def Outcome (txs : List Tx) (cur : Tx) (s : Journal) : Prop :=
  s.txs = txs ∧ (s.cur = cur ∨ s.cur = []) ∨ s.txs = txs ++ [cur] ∧ s.cur = []

theorem Outcome.finish (h : Outcome txs cur s) (m : Machine) :
    Outcome txs cur ⟨m, s.finish, []⟩ := by
  simp only [Journal.finish]
  rcases h with ⟨htxs, hcur | hcur⟩ | ⟨htxs, hcur⟩
  · by_cases hempty : cur.isEmpty
    · exact .inl ⟨by simp [hcur, hempty, htxs], .inr rfl⟩
    · exact .inr ⟨by simp [hcur, hempty, htxs], rfl⟩
  · exact .inl ⟨by simp [hcur, htxs], .inr rfl⟩
  · exact .inr ⟨by simp [hcur, htxs], rfl⟩

theorem Outcome.step (h : Outcome txs cur s) (he : Recovering s e)
    (hs : s.step A e = some s') : Outcome txs cur s' := by
  obtain ⟨m, -, rfl⟩ := Option.map_eq_some_iff.mp hs
  cases e with
  | logWrite | commit => simp [Recovering, recovering] at he
  | crash => exact h
  | write =>
    dsimp only
    split
    · exact h.finish m
    · exact h
  | recover =>
    dsimp only
    split
    · exact h.imp (fun h => ⟨h.1, .inr rfl⟩) fun h => ⟨h.1, rfl⟩
    · exact h

/-- Stop the machine at any points of any run from an empty log. When the log is idle again, the home blocks are those
    after the transactions whose `commit` had returned, or after these and the whole of the next one. -/
theorem crash_atomic {tr tr' : List (Journal × Event A)} (hd : d A.start 0 = 0)
    (hr : Run (OfStep (step A)) (init d) tr s) (hr' : Run (OfStep (step A)) s tr' s') (hrec : Meets Recovering tr')
    (hidle : s'.machine.pc = .idle) :
    (∃ txs, (txs = s.txs ∨ txs = s.txs ++ [s.cur]) ∧
      ∀ b, A.Home b → s'.machine.disk b = applyWrites d txs.flatten b) ∧ s'.machine.disk A.start 0 = 0 := by
  have hinv : Inv A d s' := ((inv_init hd).run hr).run hr'
  have hout : Outcome s.txs s.cur s' :=
    (hr'.always (I := Outcome s.txs s.cur) (.inl ⟨rfl, .inl rfl⟩) hrec fun hI he hs => hI.step he hs).2
  obtain ⟨hhome, hhead⟩ := hinv.idle hidle
  exact ⟨⟨s'.txs, hout.imp And.left And.left, hhome⟩, hhead⟩

def blank : Disk := fun _ _ => 0

/-- The first half of a transaction of one block, stopped after the header has been written. -/
def halfCommit : List (Event .mkfs) := [.logWrite ⟨40, by decide, by decide⟩ fun _ => 7, .commit, .write, .write]

theorem crash_atomic_half : ∃ tr s tr' s', Run (OfStep (step .mkfs)) (init blank) tr s ∧ tr.map (·.2) = halfCommit ∧
    Run (OfStep (step .mkfs)) s tr' s' ∧ tr'.map (·.2) = [.crash, .recover, .write, .crash, .recover, .write, .write] ∧
    (∃ txs, (txs = s.txs ∨ txs = s.txs ++ [s.cur]) ∧
      ∀ b, Area.mkfs.Home b → s'.machine.disk b = applyWrites blank txs.flatten b) := by
  obtain ⟨tr, s, hr, hl, h⟩ := Run.exists_of_traceOf (f := step .mkfs) (init blank) halfCommit
    (fun _ s => (traceOf (step .mkfs) s [.crash, .recover, .write, .crash, .recover, .write, .write]).any
      (fun r => decide (Meets Recovering r.1 ∧ r.2.machine.pc = .idle)) = true) (by decide)
  obtain ⟨tr', s', hr', hl', hrec, hidle⟩ := Run.exists_of_traceOf (f := step .mkfs) s
    [.crash, .recover, .write, .crash, .recover, .write, .write]
    (fun tr' s' => Meets Recovering tr' ∧ s'.machine.pc = .idle) h
  exact ⟨tr, s, tr', s', hr, hl, hr', hl', (crash_atomic rfl hr hr' hrec hidle).1⟩

end Journal

end Xv6.Log
