import Xv6.Ide

/-! The queue of the disk driver serves its requests in the order in which they were made. The first buffer of the queue
    is the one whose command the device has, and its caller still waits. -/

namespace Xv6.Ide
open Lib

/-- A buffer that is handed to `iderw`, as it was then. -/
abbrev Request (ι : Type) := ι × Buf

/-- The requests of a run, in queue order. -/
def requests {ι : Type} (tr : List (State ι × Event ι)) : List (Request ι) :=
  tr.filterMap fun x =>
    match x.2 with
    | .call b => some (b, x.1.buf b)
    | _ => none

/-- The disk in memory after a list of requests. -/
def memRun {ι : Type} (disk : Nat → Data) (rs : List (Request ι)) : Option (Nat → Data) :=
  rs.foldlM (fun m r => (memIderw m r.2).map (·.1)) disk

/-- Every request is for a block of device 1. -/
def Proper {ι : Type} (s : State ι) : Event ι → Prop
  | .call b => (s.buf b).dev = 1 ∧ (s.buf b).blockno.toNat < fssize
  | _ => True

instance {ι : Type} (s : State ι) (e : Event ι) : Decidable (Proper s e) :=
  match e with
  | .call _ => inferInstanceAs (Decidable (_ ∧ _))
  | .resume _ | .edit _ _ | .transfer | .intr => inferInstanceAs (Decidable True)

/-! ### Buffers and commands -/

section Buffers
variable {c : Buf} {m : Nat → Data} {d : Device}

/-- A request that neither driver panics on. -/
structure Buf.Ready (c : Buf) : Prop where
  synced : ¬c.Synced
  dev : c.dev = 1
  blockno : c.blockno.toNat < fssize

theorem bits_or_and_not {f v d : Word} (h : v &&& d = 0) : (f ||| v) &&& ~~~d = f &&& ~~~d ||| v := by
  ext i hi
  have hbit : (v &&& d)[i] = (0 : Word)[i] := by rw [h]
  simp only [BitVec.getElem_and, BitVec.getElem_or, BitVec.getElem_not, BitVec.ofNat_eq_ofNat,
    BitVec.getElem_zero] at hbit ⊢
  revert hbit
  cases f[i] <;> cases v[i] <;> cases d[i] <;> decide

theorem bits_and_not {f d : Word} (h : f &&& d = 0) : f &&& ~~~d = f := by
  ext i hi
  have hbit : (f &&& d)[i] = (0 : Word)[i] := by rw [h]
  simp only [BitVec.getElem_and, BitVec.getElem_not, BitVec.ofNat_eq_ofNat, BitVec.getElem_zero] at hbit ⊢
  revert hbit
  cases f[i] <;> cases d[i] <;> decide

theorem Buf.completed_flags (c : Buf) (port : Data) : (c.completed port).flags = c.flags &&& ~~~bDirty ||| bValid := by
  rw [← bits_or_and_not (by decide)]
  unfold Buf.completed
  dsimp only
  split <;> rfl

theorem memIderw_ready (h : c.Ready) (m : Nat → Data) : memIderw m c = some
    (if c.Dirty then Function.update m c.blockno.toNat c.data else m, c.completed (m c.blockno.toNat)) := by
  have hflags := Buf.completed_flags c (m c.blockno.toNat)
  have hdev : ¬c.dev ≠ 1 := not_not.mpr h.dev
  simp only [memIderw, if_neg h.synced, if_neg hdev, if_neg (Nat.not_le.mpr h.blockno)]
  by_cases hd : c.Dirty
  · simp only [if_pos hd]
    rw [← hflags]
    simp only [Buf.completed, hd, not_true_eq_false, if_false]
  · have hclear : c.flags &&& bDirty = 0 := not_not.mp hd
    rw [bits_and_not hclear] at hflags
    simp only [if_neg hd]
    rw [← hflags]
    simp only [Buf.completed, hd, not_false_eq_true, if_true]

theorem toNat_byte (x : Word) : ((x &&& 0xFF).setWidth 8).toNat = x.toNat % 256 := by
  have hlow : (x &&& 0xFF).toNat = x.toNat % 256 := Nat.and_two_pow_sub_one_eq_mod x.toNat 8
  rw [BitVec.toNat_setWidth, hlow]
  omega

theorem toNat_sshiftRight {x : Word} (h : x.toNat < 0x80000000) (n : Nat) : (x.sshiftRight n).toNat = x.toNat / 2 ^ n := by
  have hmsb : x.msb = false := by
    rw [BitVec.msb_eq_false_iff_two_mul_lt]
    omega
  rw [BitVec.sshiftRight_eq_of_msb_false hmsb, BitVec.toNat_ushiftRight, Nat.shiftRight_eq_div_pow]

theorem command_drive (h : c.Ready) : c.command.drive = 0xF0 := by
  have hb : c.blockno.toNat < 1000 := h.blockno
  have hhigh : c.blockno.sshiftRight 24 = 0 := by
    apply BitVec.eq_of_toNat_eq
    rw [toNat_sshiftRight (by omega)]
    exact Nat.div_eq_of_lt (by omega)
  simp only [Buf.command, bsize, sectorSize, Nat.reduceDiv, BitVec.ofNat_eq_ofNat, BitVec.mul_one, h.dev]
  rw [hhigh]
  decide

theorem command_sector (h : c.Ready) : c.command.sector = c.blockno.toNat := by
  have hb : c.blockno.toNat < 1000 := h.blockno
  have h0 := toNat_byte c.blockno
  have h8 := toNat_byte (c.blockno.sshiftRight 8)
  have h16 := toNat_byte (c.blockno.sshiftRight 16)
  rw [toNat_sshiftRight (by omega)] at h8 h16
  simp only [BitVec.ofNat_eq_ofNat] at h0 h8 h16
  have hdrive : (0xF0#8 &&& 0x0F#8).toNat = 0 := by decide
  unfold Command.sector
  rw [command_drive h]
  simp only [Buf.command, bsize, sectorSize, Nat.reduceDiv, BitVec.ofNat_eq_ofNat, BitVec.mul_one, h0, h8, h16, hdrive]
  omega

theorem command_disk1 (h : c.Ready) : c.command.disk1 = true := by
  rw [Command.disk1, command_drive h]
  decide

theorem transfer_command (h : c.Ready) (hd : d.outstanding = [c.command]) : ∃ disk port,
    d.transfer = some ⟨disk, [], port, d.irqs + 1⟩ ∧ memIderw (d.disk true) c = some (disk true, c.completed port) := by
  have hmem := memIderw_ready h (d.disk true)
  by_cases hdirty : c.Dirty
  · have hcmd : c.command.cmd = ideCmdWrite := by simp [Buf.command, hdirty]
    have hout : c.command.out = some c.data := by simp [Buf.command, hdirty]
    refine ⟨Function.update d.disk true (Function.update (d.disk true) c.blockno.toNat c.data), d.port, ?_, ?_⟩
    · simp only [Device.transfer, hd, hcmd, true_or, if_true, hout, Option.map_some, command_disk1 h, command_sector h]
    · rw [hmem, if_pos hdirty, Function.update_self]
      simp only [Buf.completed, hdirty, not_true_eq_false, if_false]
  · have hcmd : c.command.cmd = ideCmdRead := by simp [Buf.command, hdirty]
    refine ⟨d.disk, d.disk true c.blockno.toNat, ?_, ?_⟩
    · simp only [Device.transfer, hd, hcmd, command_disk1 h, command_sector h]
      rfl
    · rw [hmem, if_neg hdirty]

end Buffers

/-! ### The queue -/

/-- What the device has to do with the requests that are in the queue: `m` is the disk in memory after those before. -/
inductive Phase {ι : Type} (m : Nat → Data) (d : Device) : List (Request ι) → Prop
  | idle (hout : d.outstanding = []) (hirq : d.irqs = 0) (hdisk : d.disk true = m) : Phase m d []
  | issued {r : Request ι} {rest : List (Request ι)} (hout : d.outstanding = [r.2.command]) (hirq : d.irqs = 0)
      (hdisk : d.disk true = m) : Phase m d (r :: rest)
  | raised {r : Request ι} {rest : List (Request ι)} (hout : d.outstanding = []) (hirq : d.irqs = 1)
      (hdisk : memIderw m r.2 = some (d.disk true, r.2.completed d.port)) : Phase m d (r :: rest)

/-- The buffer `b` is as the disk in memory has left it for the last request with `b`. -/
def Result {ι : Type} (disk : Nat → Data) (served : List (Request ι)) (b : ι) (c : Buf) : Prop :=
  ∃ before req after m m', served = before ++ (b, req) :: after ∧ (∀ r ∈ after, r.1 ≠ b) ∧ memRun disk before = some m ∧
    memIderw m req = some (m', c)

/-- The requests of which the first `served` are done and the others are in the queue. -/
structure Serving {ι : Type} (disk : Nat → Data) (served pending : List (Request ι)) (s : State ι) : Prop where
  chain : Chain s.qnext s.idequeue (pending.map (·.1))
  nodup : (pending.map (·.1)).Nodup
  ready : ∀ r ∈ pending, r.2.Ready
  asked : ∀ r ∈ pending, s.buf r.1 = r.2 ∧ s.waiting r.1 = true
  started : s.started = served.map (·.1) ++ (pending.map (·.1)).take 1
  phase : ∃ m, memRun disk served = some m ∧ Phase m s.device pending
  results : ∀ b, s.waiting b = true → b ∉ pending.map (·.1) → Result disk served b (s.buf b)

section Serving
variable {ι : Type} {disk m : Nat → Data} {served pending : List (Request ι)} {r : Request ι} {s s' : State ι} {b : ι}

theorem requests_snoc (tr : List (State ι × Event ι)) (x : State ι × Event ι) :
    requests (tr ++ [x]) = requests tr ++ requests [x] := List.filterMap_append ..

theorem memRun_append {rs rs' : List (Request ι)} :
    memRun disk (rs ++ rs') = (memRun disk rs).bind fun m => memRun m rs' := by
  unfold memRun
  rw [List.foldlM_append]
  rfl

theorem memRun_snoc (h : memRun disk served = some m) {m' : Nat → Data} {c : Buf} (hr : memIderw m r.2 = some (m', c)) :
    memRun disk (served ++ [r]) = some m' := by
  rw [memRun_append, h]
  simp [memRun, hr]

theorem Result.snoc {c : Buf} (h : Result disk served b c) (hr : r.1 ≠ b) : Result disk (served ++ [r]) b c := by
  obtain ⟨before, req, after, m, m', rfl, hafter, hm, hm'⟩ := h
  refine ⟨before, req, after ++ [r], m, m', by simp, fun x hx => ?_, hm, hm'⟩
  rcases List.mem_append.mp hx with hx | hx
  · exact hafter x hx
  · rw [List.mem_singleton.mp hx]
    exact hr

theorem Phase.append {d : Device} (h : Phase m d pending) (hne : pending ≠ []) (rs : List (Request ι)) :
    Phase m d (pending ++ rs) := by
  cases h with
  | idle => exact absurd rfl hne
  | issued hout hirq hdisk => exact .issued hout hirq hdisk
  | raised hout hirq hdisk => exact .raised hout hirq hdisk

theorem Serving.transfer (h : Serving disk served pending s) {d : Device} (hd : s.device.transfer = some d) :
    Serving disk served pending { s with device := d } := by
  obtain ⟨m, hm, hphase⟩ := h.phase
  refine { h with phase := ⟨m, hm, ?_⟩ }
  cases hphase with
  | idle hout => simp [Device.transfer, hout] at hd
  | raised hout => simp [Device.transfer, hout] at hd
  | issued hout hirq hdisk =>
    obtain ⟨disk', port, htransfer, hmem⟩ := transfer_command (h.ready _ (List.mem_cons_self ..)) hout
    obtain rfl := Option.some.inj (hd.symm.trans htransfer)
    rw [hdisk] at hmem
    exact .raised rfl (by simp [hirq]) hmem

theorem Serving.carriedOut (h : Serving disk served pending s) : ∃ extra rest, pending = extra ++ rest ∧
    memRun disk (served ++ extra) = some (s.device.disk true) := by
  obtain ⟨m, hm, hphase⟩ := h.phase
  cases hphase with
  | idle _ _ hdisk => exact ⟨[], [], rfl, by rw [List.append_nil, hm, hdisk]⟩
  | issued _ _ hdisk => exact ⟨[], _, rfl, by rw [List.append_nil, hm, hdisk]⟩
  | @raised r rest _ _ hmem => exact ⟨[r], rest, rfl, memRun_snoc hm hmem⟩

theorem Serving.oneCommand (h : Serving disk served pending s) : s.device.outstanding.length + s.device.irqs ≤ 1 := by
  obtain ⟨m, hm, hphase⟩ := h.phase
  cases hphase with
  | idle hout hirq => simp [hout, hirq]
  | issued hout hirq => simp [hout, hirq]
  | raised hout hirq => simp [hout, hirq]

theorem Serving.not_mem (h : Serving disk served pending s) (hb : s.waiting b = false) : b ∉ pending.map (·.1) := by
  intro hmem
  obtain ⟨r, hr, rfl⟩ := List.mem_map.mp hmem
  rw [(h.asked r hr).2] at hb
  cases hb

theorem idestart_ready (s : State ι) (h : (s.buf b).Ready) : s.idestart (some b) = some { s with
    device := { s.device with outstanding := s.device.outstanding ++ [(s.buf b).command] }, started :=
        s.started ++ [b] } := by
  simp only [State.idestart]
  rw [if_neg (Nat.not_le.mpr h.blockno)]

variable [DecidableEq ι]

theorem Serving.edit (h : Serving disk served pending s) (hb : s.waiting b = false) (c : Buf) :
    Serving disk served pending { s with buf := Function.update s.buf b c } := by
  refine { h with asked := fun r hr => ?_, results := fun b' hb' hmem => ?_ }
  · have hne : r.1 ≠ b := by
      rintro rfl
      exact h.not_mem hb (List.mem_map_of_mem hr)
    dsimp only
    rw [Function.update_of_ne hne]
    exact h.asked r hr
  · have hne : b' ≠ b := by
      rintro rfl
      rw [hb] at hb'
      cases hb'
    dsimp only
    rw [Function.update_of_ne hne]
    exact h.results b' hb' hmem

theorem await_of_ne {a : ι} (s : State ι) (h : a ≠ b) : (s.await b).waiting a = s.waiting a := Function.update_of_ne h _ _

theorem await_self (s : State ι) (b : ι) : (s.await b).waiting b = decide ¬(s.buf b).Synced := Function.update_self ..

theorem Serving.await (h : Serving disk served pending s) (hb : s.waiting b = true) :
    Serving disk served pending (s.await b) := by
  refine { h with asked := fun r hr => ⟨(h.asked r hr).1, ?_⟩, results := fun a ha hmem => ?_ }
  · by_cases hrb : r.1 = b
    · have hready := (h.ready r hr).synced
      rw [← (h.asked r hr).1, hrb] at hready
      rw [hrb, await_self, decide_eq_true hready]
    · rw [await_of_ne s hrb]
      exact (h.asked r hr).2
  · by_cases hab : a = b
    · rw [hab] at hmem ⊢
      exact h.results b hb hmem
    · rw [await_of_ne s hab] at ha
      exact h.results a ha hmem

theorem Serving.intr (h : Serving disk served pending s) (hirq : s.device.irqs ≠ 0)
    (hs : { s with device := { s.device with irqs := s.device.irqs - 1 } }.ideintr = some s') :
    ∃ r rest, pending = r :: rest ∧ Serving disk (served ++ [r]) rest s' := by
  obtain ⟨m, hm, hphase⟩ := h.phase
  cases hphase with
  | idle _ hzero => exact absurd hzero hirq
  | issued _ hzero => exact absurd hzero hirq
  | @raised r rest hout hone hmem =>
    refine ⟨r, rest, rfl, ?_⟩
    obtain ⟨hhead, hchain⟩ := h.chain
    obtain ⟨hbuf, hwaiting⟩ := h.asked r (List.mem_cons_self ..)
    have hnodup := h.nodup
    rw [List.map_cons, List.nodup_cons] at hnodup
    have hne {x : Request ι} (hx : x ∈ rest) : x.1 ≠ r.1 := by
      intro heq
      exact hnodup.1 (heq ▸ List.mem_map_of_mem hx)
    have hm' := memRun_snoc hm hmem
    -- All that does not depend on whether another request is started.
    have hasked : ∀ x ∈ rest, Function.update s.buf r.1 ((s.buf r.1).completed s.device.port) x.1 = x.2 ∧
        s.waiting x.1 = true := by
      intro x hx
      rw [Function.update_of_ne (hne hx)]
      exact h.asked x (List.mem_cons_of_mem _ hx)
    have hresults : ∀ a, s.waiting a = true → a ∉ rest.map (·.1) →
        Result disk (served ++ [r]) a (Function.update s.buf r.1 ((s.buf r.1).completed s.device.port) a) := by
      intro a ha hmema
      by_cases har : a = r.1
      · rw [har, Function.update_self, hbuf]
        exact ⟨served, r.2, [], m, _, rfl, by simp, hm, hmem⟩
      · rw [Function.update_of_ne har]
        exact (h.results a ha (by simp [har, hmema])).snoc (Ne.symm har)
    have hstarted : s.started = (served ++ [r]).map (·.1) := by rw [h.started]; simp
    simp only [State.ideintr, hhead] at hs
    cases rest with
    | nil =>
      have hnone : s.qnext r.1 = none := hchain
      simp only [hnone, ne_eq, not_true_eq_false, if_false, Option.some.injEq] at hs
      obtain rfl := hs
      refine ⟨rfl, List.nodup_nil, by simp, by simp, by simpa using hstarted, ⟨_, hm', ?_⟩, hresults⟩
      exact .idle hout (by simp [hone]) rfl
    | cons x rest =>
      have hsome : s.qnext r.1 = some x.1 := hchain.1
      have hready := h.ready x (by simp)
      simp only [hsome, ne_eq, reduceCtorEq, not_false_eq_true, if_true] at hs
      have hx := (hasked x (List.mem_cons_self ..)).1
      rw [idestart_ready _ (by dsimp only; rw [hx]; exact hready)] at hs
      obtain rfl := Option.some.inj hs
      refine ⟨?_, hnodup.2, fun y hy => h.ready y (List.mem_cons_of_mem _ hy), hasked, ?_, ⟨_, hm', ?_⟩, hresults⟩
      · exact ⟨rfl, hchain.2⟩
      · simp [hstarted]
      · refine .issued ?_ (by simp [hone]) rfl
        simp only [hout, hx, List.nil_append]

variable [Fintype ι]

theorem Serving.call (h : Serving disk served pending s) (hproper : (s.buf b).dev = 1 ∧ (s.buf b).blockno.toNat < fssize)
    (hs : s.iderw b = some s') :
    Serving disk served (pending ++ [(b, s.buf b)]) s' ∧ s'.waiting b = true := by
  unfold State.iderw at hs
  split_ifs at hs with hwaiting hsynced hdisk
  have hready : (s.buf b).Ready := ⟨hsynced, hproper.1, hproper.2⟩
  have hmem := h.not_mem (Bool.eq_false_iff.mpr hwaiting)
  have hchain : Chain (Function.update s.qnext b none) s.idequeue (pending.map (·.1)) :=
    h.chain.congr fun a ha => Function.update_of_ne (fun heq => hmem (by rw [← heq]; exact ha)) _ _
  have hlast := Link.last_of_chain none (Fintype.card ι + 1) hchain
    (Nat.lt_succ_of_le h.nodup.length_le_card)
  simp only [hlast, Option.bind_some] at hs
  obtain ⟨m, hm, hphase⟩ := h.phase
  -- What holds of the requests wherever the new one is linked in.
  have hnodup : ((pending ++ [(b, s.buf b)]).map (·.1)).Nodup := by
    rw [List.map_append, List.nodup_append]
    refine ⟨h.nodup, by simp, fun a ha c hc heq => hmem ?_⟩
    have hcb : c = b := by simpa using hc
    rw [← hcb, ← heq]
    exact ha
  have hreadys : ∀ r ∈ pending ++ [(b, s.buf b)], r.2.Ready := by
    intro r hr
    rcases List.mem_append.mp hr with hr | hr
    · exact h.ready r hr
    · rw [List.mem_singleton.mp hr]
      exact hready
  have hself : Function.update s.waiting b (decide ¬(s.buf b).Synced) b = true := by
    rw [Function.update_self, decide_eq_true hsynced]
  have hasked : ∀ r ∈ pending ++ [(b, s.buf b)], s.buf r.1 = r.2 ∧
      Function.update s.waiting b (decide ¬(s.buf b).Synced) r.1 = true := by
    intro r hr
    rcases List.mem_append.mp hr with hr | hr
    · rw [Function.update_of_ne (fun heq => hmem (by rw [← heq]; exact List.mem_map_of_mem hr))]
      exact h.asked r hr
    · rw [List.mem_singleton.mp hr]
      exact ⟨rfl, hself⟩
  have hresults : ∀ a, Function.update s.waiting b (decide ¬(s.buf b).Synced) a = true →
      a ∉ (pending ++ [(b, s.buf b)]).map (·.1) → Result disk served a (s.buf a) := by
    intro a ha hmema
    simp only [List.map_append, List.map_cons, List.map_nil, List.mem_append, List.mem_singleton, not_or] at hmema
    rw [Function.update_of_ne hmema.2] at ha
    exact h.results a ha hmema.1
  rcases List.eq_nil_or_concat pending with rfl | ⟨init, z, rfl⟩
  · -- The queue was empty, and the disk is started.
    simp only [List.map_nil, List.getLast?_nil, Option.none_or, State.setLink] at hs
    have hstart := idestart_ready { s with qnext := Function.update s.qnext b none, idequeue := some b } hready
    rw [if_pos trivial, hstart] at hs
    obtain rfl := Option.some.inj hs
    cases hphase with
    | idle hout hirq hdisk =>
      refine ⟨⟨⟨rfl, Function.update_self ..⟩, hnodup, hreadys, hasked, ?_, ⟨m, hm, .issued ?_ hirq hdisk⟩, hresults⟩,
        hself⟩
      · have := h.started
        simp only [State.await, this]
        simp
      · simp [State.await, hout]
  · -- The last buffer of the queue gets a successor.
    rw [List.concat_eq_append] at *
    have hhead : s.idequeue ≠ some b := by
      rw [h.chain.head]
      intro hb
      exact hmem (List.mem_of_mem_head? hb)
    simp only [List.map_append, List.map_cons, List.map_nil, List.getLast?_append, List.getLast?_singleton, Option.some_or,
      State.setLink, if_neg hhead, Option.map_some, Option.some.injEq] at hs
    obtain rfl := hs
    refine ⟨⟨?_, hnodup, hreadys, hasked, ?_, ⟨m, hm, ?_⟩, hresults⟩, hself⟩
    · have hold := h.nodup
      rw [List.map_append] at hold hchain hmem
      rw [List.map_append, List.map_append]
      exact hchain.snoc hold hmem (Function.update_self ..)
    · have := h.started
      simp only [State.await, this]
      cases init <;> simp
    · exact hphase.append (by simp) _

theorem run_serving {buf : ι → Buf} {disk : Bool → Nat → Data} {port : Data} {havedisk1 : Bool}
    {tr : List (State ι × Event ι)} (hr : Run (OfStep State.step) (.start buf disk port havedisk1) tr s)
    (hG : Meets Proper tr) : ∃ served pending, requests tr = served ++ pending ∧ Serving (disk true) served pending s := by
  induction hr with
  | nil =>
    refine ⟨[], [], rfl, rfl, List.nodup_nil, by simp, by simp, rfl, ⟨_, rfl, .idle rfl rfl rfl⟩, fun b hb => ?_⟩
    cases hb
  | @snoc tr s s' a hr hs ih =>
    obtain ⟨hG, hg⟩ := meets_snoc.mp hG
    obtain ⟨served, pending, hreq, h⟩ := ih hG
    rw [requests_snoc, hreq]
    unfold OfStep State.step at hs
    cases a with
    | call b => exact ⟨served, pending ++ [(b, s.buf b)], by simp [requests], (h.call hg hs).1⟩
    | resume b =>
      refine ⟨served, pending, by simp [requests], ?_⟩
      dsimp only at hs
      split at hs
      · obtain rfl := Option.some.inj hs
        exact h.await ‹_›
      · cases hs
    | edit b c =>
      refine ⟨served, pending, by simp [requests], ?_⟩
      dsimp only at hs
      split at hs
      · cases hs
      · rename_i hb
        obtain rfl := Option.some.inj hs
        exact h.edit (Bool.eq_false_iff.mpr hb) c
    | transfer =>
      refine ⟨served, pending, by simp [requests], ?_⟩
      obtain ⟨d, hd, rfl⟩ := Option.map_eq_some_iff.mp hs
      exact h.transfer hd
    | intr =>
      dsimp only at hs
      split at hs
      · cases hs
      · rename_i hirq
        obtain ⟨r, rest, rfl, hnext⟩ := h.intr hirq hs
        exact ⟨served ++ [r], rest, by simp [requests], hnext⟩

end Serving

/-- The driver with its queue does what the disk in memory does with the requests in queue order. A buffer is started
    once for every request, the device has at most one command, and a call returns after its sleep, with the buffer that
    the disk in memory returns. -/
theorem queue_refines_memide {ι : Type} [DecidableEq ι] [Fintype ι] {buf : ι → Buf} {disk : Bool → Nat → Data} {port : Data}
    {havedisk1 : Bool} {tr : List (State ι × Event ι)} {s : State ι}
    (hr : Run (OfStep State.step) (.start buf disk port havedisk1) tr s) (hG : Meets Proper tr) :
    (∃ queue, Chain s.qnext s.idequeue queue ∧ (requests tr).map (·.1) = s.started ++ queue.tail) ∧
    s.device.outstanding.length + s.device.irqs ≤ 1 ∧
    (∃ done rest, requests tr = done ++ rest ∧ memRun (disk true) done = some (s.device.disk true)) ∧
    (∀ b s', Proper s (.call b) → s.step (.call b) = some s' → s'.waiting b = true) ∧
    ∀ b s', s.step (.resume b) = some s' → s'.waiting b = false → (s'.buf b).Synced ∧ s'.device = s.device ∧
      ∃ before c after after' m m', requests tr = before ++ (b, c) :: (after ++ after') ∧
        (∀ r ∈ after ++ after', r.1 ≠ b) ∧ memRun (disk true) before = some m ∧ memIderw m c = some (m', s'.buf b) ∧
        memRun m' after = some (s'.device.disk true) := by
  obtain ⟨served, pending, hreq, h⟩ := run_serving hr hG
  obtain ⟨extra, rest, hpending, hdone⟩ := h.carriedOut
  refine ⟨⟨_, h.chain, ?_⟩, h.oneCommand, ⟨served ++ extra, rest, by rw [hreq, hpending, List.append_assoc], hdone⟩,
    fun b s' hproper hs => (h.call hproper hs).2, fun b s' hs hret => ?_⟩
  · rw [hreq, List.map_append, h.started, List.append_assoc, List.append_cancel_left_eq]
    cases pending <;> simp
  · simp only [State.step] at hs
    split at hs
    · rename_i hb
      obtain rfl := Option.some.inj hs
      have hsynced : (s.buf b).Synced := by
        rw [await_self] at hret
        exact not_not.mp (of_decide_eq_false hret)
      have hmem : b ∉ pending.map (·.1) := by
        intro hmem
        obtain ⟨r, hr, rfl⟩ := List.mem_map.mp hmem
        rw [(h.asked r hr).1] at hsynced
        exact (h.ready r hr).synced hsynced
      obtain ⟨before, c, after, m, m', rfl, hafter, hm, hc⟩ := h.results b hb hmem
      refine ⟨hsynced, rfl, before, c, after ++ extra, rest, m, m', ?_, fun r hr => ?_, hm, hc, ?_⟩
      · rw [hreq, hpending]
        simp
      · rw [List.append_assoc, ← hpending] at hr
        rcases List.mem_append.mp hr with hr | hr
        · exact hafter r hr
        · rintro rfl
          exact hmem (List.mem_map_of_mem hr)
      · have hsplit : before ++ (b, c) :: after ++ extra = (before ++ [(b, c)]) ++ (after ++ extra) := by simp
        rw [hsplit, memRun_append, memRun_snoc hm hc] at hdone
        exact hdone
    · cases hs

/-- Two buffers for block 5: the first is to be written, the second is to be read. -/
def twoBuffers (b : Fin 2) : Buf := ⟨if b = 0 then bDirty else 0, 1, 5, fun _ => if b = 0 then 7 else 0⟩

theorem queue_refines_memide_two : ∃ tr s,
    Run (OfStep State.step) (.start twoBuffers (fun _ _ _ => 0) (fun _ => 0) true) tr s ∧
    tr.map (·.2) = [.call 0, .call 1, .transfer, .intr, .transfer, .intr, .resume 1] ∧ s.waiting 1 = false ∧
    (s.buf 1).data 0 = 7 ∧ s.device.outstanding.length + s.device.irqs ≤ 1 ∧
    ∃ done rest, requests tr = done ++ rest ∧ memRun (fun _ _ => 0) done = some (s.device.disk true) := by
  obtain ⟨tr, s, hr, hl, hG, hret, hdata⟩ := Run.exists_of_traceOf (f := State.step)
    (.start twoBuffers (fun _ _ _ => 0) (fun _ => 0) true) [.call 0, .call 1, .transfer, .intr, .transfer, .intr, .resume 1]
    (fun tr s => Meets Proper tr ∧ s.waiting 1 = false ∧ (s.buf 1).data 0 = 7) (by decide +kernel)
  have h := queue_refines_memide hr hG
  exact ⟨tr, s, hr, hl, hret, hdata, h.2.1, h.2.2.1⟩

end Xv6.Ide
