import CcnLite.Frag.BeginEnd2015

/-!
# Reassembly never mixes packets

`ccnl_frag_RX_BeginEnd2015` on any sequence of fragments. The code keeps the bytes of the fragments
so far, the receiver of `Lib/BeginEnd.lean` the fragments themselves: `Holds` says that they are at
the same place. So each buffer that is delivered is made of fragments that came one right after the
other (`reassembly_sound`).
-/

namespace Ccnl

open CRun BeginEnd

/-- The number after a sequence number, an `unsigned int`. -/
def nextSeq (n : Nat) : Nat := u32 (n + 1)

def Fragment.flag (x : Fragment) : Flag := befragFlagOf x.bits

def Fragment.piece (x : Fragment) : Piece Nat (List UInt8) := ⟨x.flag, x.seqno, x.data⟩

/-- A fragment as a forwarder reads it from a frame: a sequence number of 14 bits, a length of 16. -/
structure Fragment.OnWire (x : Fragment) : Prop where
  seqno : x.seqno < 2 ^ 14
  length : x.data.length ≤ uint16Max

/-- `buf` is the data of a single fragment, or of a first fragment, fragments in the middle and a
last one, with successive sequence numbers. -/
def Reassembles (series : List Fragment) (buf : List UInt8) : Prop :=
  (∃ x, series = [x] ∧ x.flag = .single ∧ buf = x.data) ∨
  (∃ x mids z, series = x :: mids ++ [z] ∧ x.flag = .first ∧ (∀ y ∈ mids, y.flag = .mid) ∧
    z.flag = .last ∧ series.IsChain (fun a b => b.seqno = nextSeq a.seqno) ∧
    buf = series.flatMap (·.data))

/-- A fragment comes on a face. -/
def fragReceiver (mtu : Int) : Trans (Option FragFace) Fragment Delivery := fun «from» x =>
  let r := fragRXBeginEnd2015 mtu «from» x
  (r.from, r.deliver.toList)

/-- The bytes of the pieces. -/
def joined (l : List (Piece Nat (List UInt8))) : List UInt8 := l.flatMap (·.data)

/-- What the callback gets for a series. The length of a single fragment is the caller's. -/
def deliveryOf (l : List (Piece Nat (List UInt8))) : Delivery where
  buf := joined l
  len := if l.length = 1 then (joined l).length else i32 (joined l).length

/-! ## The code follows the receiver -/

/-- The partial buffer is what the open series has brought. -/
structure Holds (e : Frag) (s : Rcv Nat (List UInt8)) : Prop where
  protocol : e.protocol = .beginEnd2015
  recvseq : e.recvseq = s.expected
  defrag : e.defrag = if s.part = [] then none else some (joined s.part)

/-- The check of the sequence number closes the series after a gap. -/
theorem Holds.resync {e : Frag} {s : Rcv Nat (List UInt8)} (h : Holds e s) (n : Nat) :
    Holds (e.resync n) { expected := n, part := if s.expected = n then s.part else [] } := by
  by_cases hseq : s.expected = n
  · have hr : e.recvseq = n := h.recvseq.trans hseq
    rw [Frag.resync, if_neg (not_not.mpr hr), if_pos hseq]
    exact ⟨h.protocol, hr, h.defrag⟩
  · have hr : e.recvseq ≠ n := h.recvseq ▸ hseq
    rw [Frag.resync, if_pos hr, if_neg hseq]
    exact ⟨h.protocol, rfl, rfl⟩

theorem Holds.recv {e : Frag} {s : Rcv Nat (List UInt8)} (h : Holds e s) (x : Fragment) :
    Holds (e.recv x).1 (assemble nextSeq s x.piece).1 ∧
      (e.recv x).2.2.toList = (assemble nextSeq s x.piece).2.map deliveryOf := by
  obtain ⟨hp, hr, hd⟩ := h.resync x.seqno
  unfold Frag.recv assemble Fragment.piece Fragment.flag
  simp only
  generalize (if s.expected = x.seqno then s.part else []) = part at hd ⊢
  cases befragFlagOf x.bits with
  | single => exact ⟨⟨hp, congrArg nextSeq hr, rfl⟩, by simp [deliveryOf, joined]⟩
  | first => exact ⟨⟨hp, congrArg nextSeq hr, by simp [joined]⟩, rfl⟩
  | mid =>
    refine ⟨⟨hp, congrArg nextSeq hr, ?_⟩, rfl⟩
    by_cases hpart : part = [] <;> simp [hd, hpart, joined]
  | last =>
    refine ⟨⟨hp, congrArg nextSeq hr, rfl⟩, ?_⟩
    by_cases hpart : part = [] <;> simp [hd, hpart, joined, deliveryOf]

/-- The face has a fragment state at the same place, or gets it with the first fragment. -/
def FaceHolds (mtu : Int) («from» : Option FragFace) (s : Rcv Nat (List UInt8)) : Prop :=
  ∃ f e, «from» = some f ∧ f.frag.or (fragNew .beginEnd2015 mtu) = some e ∧ Holds e s

theorem FaceHolds.step {mtu : Int} {«from» : Option FragFace} {s : Rcv Nat (List UInt8)}
    (h : FaceHolds mtu «from» s) (x : Fragment) :
    FaceHolds mtu (fragReceiver mtu «from» x).1 (assemble nextSeq s x.piece).1 ∧
      (fragReceiver mtu «from» x).2 = (assemble nextSeq s x.piece).2.map deliveryOf := by
  obtain ⟨f, e, rfl, he, hh⟩ := h
  obtain ⟨hh', hout⟩ := hh.recv x
  have hrx : fragReceiver mtu (some f) x =
      (some { f with frag := some (e.recv x).1 }, (e.recv x).2.2.toList) := by
    simp [fragReceiver, fragRXBeginEnd2015, he, hh.protocol]
  rw [hrx]
  exact ⟨⟨_, _, rfl, rfl, hh'⟩, hout⟩

/-- Another protocol, or no face: nothing is delivered. -/
theorem fragReceiver_ignores {mtu : Int} {«from» : Option FragFace}
    (h : ∀ f, «from» = some f → ∃ e, f.frag = some e ∧ e.protocol ≠ .beginEnd2015)
    (xs : List Fragment) : (fragReceiver mtu).out «from» xs = [] := by
  induction xs with
  | nil => rfl
  | cons x xs ih =>
    have hstep : fragReceiver mtu «from» x = («from», []) := by
      cases hf : «from» with
      | none => rfl
      | some f =>
        obtain ⟨e, he, hp⟩ := h f hf
        have hfrag : f = { f with frag := some e } := by rw [← he]
        simp [fragReceiver, fragRXBeginEnd2015, he, hp, ← hfrag]
    rw [Trans.out_cons, hstep, List.nil_append, ih]

/-- No fragment has come, or the last series is over. -/
def FragFace.NoPart (f : FragFace) : Prop := ∀ e, f.frag = some e → e.defrag = none

/-- What the code delivers, from what the receiver hands out. -/
theorem fragReceiver_out (mtu : Int) {f : FragFace} (hf : f.NoPart)
    (hp : ∀ e, f.frag = some e → e.protocol = .beginEnd2015) (xs : List Fragment) :
    ∃ n, (fragReceiver mtu).out (some f) xs =
      ((assemble nextSeq).out { expected := n } (xs.map Fragment.piece)).map deliveryOf := by
  have hholds : ∃ n, FaceHolds mtu (some f) { expected := n } := by
    cases he : f.frag with
    | none => exact ⟨0, f, { protocol := .beginEnd2015, mtu }, rfl, by simp [he, fragNew], rfl, rfl, rfl⟩
    | some e => exact ⟨e.recvseq, f, e, rfl, by simp [he], hp e he, rfl, hf e he⟩
  obtain ⟨n, hn⟩ := hholds
  exact ⟨n, Trans.out_map (R := FaceHolds mtu) (fun _ _ x h => h.step x) hn xs⟩

/-! ## What is delivered -/

theorem reassembles_of_pieces {series : List Fragment} (h : Shaped (series.map Fragment.piece))
    (hc : (series.map Fragment.piece).IsChain (Follows nextSeq)) :
    Reassembles series (joined (series.map Fragment.piece)) := by
  have hbuf : joined (series.map Fragment.piece) = series.flatMap (·.data) := by
    simp [joined, List.flatMap_map, Fragment.piece]
  rw [List.isChain_map] at hc
  generalize hl : series.map Fragment.piece = l at h
  cases h with
  | single x hx =>
    obtain ⟨y, rfl, rfl⟩ := List.map_eq_singleton_iff.mp hl
    exact .inl ⟨y, rfl, hx, by rw [← hl, hbuf, List.flatMap_singleton]⟩
  | series x mids z hx hm hz =>
    obtain ⟨l₁, l₂, rfl, hl₁, hl₂⟩ := List.map_eq_append_iff.mp hl
    obtain ⟨y, ys, rfl, rfl, rfl⟩ := List.map_eq_cons_iff.mp hl₁
    obtain ⟨w, rfl, rfl⟩ := List.map_eq_singleton_iff.mp hl₂
    refine .inr ⟨y, ys, w, rfl, hx, ?_, hz, hc, by rw [← hl, hbuf]⟩
    exact fun y' hy' => hm _ (List.mem_map_of_mem hy')

/-- Successive numbers below `N`, without a jump to zero. -/
theorem length_le_of_chain {N : Nat} (hN : N < 2 ^ 32) {x : Fragment} {l : List Fragment}
    (h : (x :: l).IsChain (fun a b => b.seqno = nextSeq a.seqno)) (hl : ∀ y ∈ x :: l, y.seqno < N) :
    x.seqno + l.length < N := by
  induction l generalizing x with
  | nil => simpa using hl
  | cons y l ih =>
    rw [List.isChain_cons_cons] at h
    have hx : x.seqno < N := hl x List.mem_cons_self
    have hy : y.seqno = x.seqno + 1 := by
      rw [h.1]
      exact Nat.mod_eq_of_lt (by omega)
    have := ih h.2 fun z hz => hl z (List.mem_cons_of_mem _ hz)
    rw [List.length_cons]
    omega

/-- The `int` of the callback is large enough for what comes off the wire. -/
theorem Reassembles.length {series : List Fragment} {buf : List UInt8} (h : Reassembles series buf)
    (hw : ∀ x ∈ series, x.OnWire) : buf.length < 2 ^ 31 := by
  rcases h with ⟨x, rfl, -, rfl⟩ | ⟨x, mids, z, rfl, -, -, -, hc, rfl⟩
  · have := (hw x List.mem_cons_self).length
    unfold uint16Max at this
    omega
  · have hlen : x.seqno + (mids ++ [z]).length < 2 ^ 14 :=
      length_le_of_chain (by decide) hc fun y hy => (hw y hy).seqno
    have hsum : ∀ l : List Fragment, (∀ y ∈ l, y.OnWire) →
        (l.flatMap (·.data)).length ≤ l.length * uint16Max := by
      intro l hl
      induction l with
      | nil => simp
      | cons y l ih =>
        have hy := (hl y List.mem_cons_self).length
        have := ih fun y' h => hl y' (List.mem_cons_of_mem _ h)
        rw [List.flatMap_cons, List.length_append, List.length_cons, Nat.succ_mul]
        omega
    have hmul : (x :: (mids ++ [z])).length * uint16Max ≤ 2 ^ 14 * uint16Max :=
      Nat.mul_le_mul_right _ (by rw [List.length_cons]; omega)
    exact Nat.lt_of_le_of_lt (Nat.le_trans (hsum _ hw) hmul) (by decide)

/-- Each buffer that is delivered is the data of one single fragment, or of fragments that came one
right after the other, from a first one to a last one and with successive sequence numbers. The
length that comes with the buffer is right for all fragments that a frame can hold. -/
theorem reassembly_sound (mtu : Int) («from» : Option FragFace) (xs : List Fragment)
    (h : ∀ f, «from» = some f → f.NoPart) :
    ∀ d ∈ (fragReceiver mtu).out «from» xs,
      (∃ pre series post, xs = pre ++ series ++ post ∧ Reassembles series d.buf) ∧
      ((∀ x ∈ xs, x.OnWire) → d.len = d.buf.length) := by
  intro d hd
  by_cases hig : ∀ f, «from» = some f → ∃ e, f.frag = some e ∧ e.protocol ≠ .beginEnd2015
  · rw [fragReceiver_ignores hig] at hd
    cases hd
  · obtain ⟨f, hig⟩ := not_forall.mp hig
    obtain ⟨rfl, hne⟩ := Classical.not_imp.mp hig
    have hp : ∀ e, f.frag = some e → e.protocol = .beginEnd2015 := by
      intro e he
      by_contra hep
      exact hne ⟨e, he, hep⟩
    obtain ⟨n, hout⟩ := fragReceiver_out mtu (h f rfl) hp xs
    rw [hout] at hd
    obtain ⟨l, hl, rfl⟩ := List.mem_map.mp hd
    obtain ⟨pre, post, hxs, hshape, hchain⟩ := assemble_sound n _ l hl
    obtain ⟨xs', post, rfl, hxs, -⟩ := List.map_eq_append_iff.mp hxs
    obtain ⟨pre, series, rfl, -, rfl⟩ := List.map_eq_append_iff.mp hxs
    have hre := reassembles_of_pieces hshape hchain
    refine ⟨⟨pre, series, post, rfl, hre⟩, fun hw => ?_⟩
    have hlt := hre.length fun x hx => hw x (by simp [hx])
    simp only [deliveryOf]
    split
    · rfl
    · exact Int.bmod_eq_of_le (by omega) (by omega)

/-- A packet in three fragments, on a face that has not had one. -/
theorem reassembly_sound_three :
    let f : FragFace := { faceid := 1, ifndx := 0 }
    let xs : List Fragment := [⟨1, 0, [97]⟩, ⟨0, 1, [98]⟩, ⟨2, 2, [99]⟩]
    ∀ d ∈ (fragReceiver 1500).out (some f) xs,
      (∃ pre series post, xs = pre ++ series ++ post ∧ Reassembles series d.buf) ∧
      ((∀ x ∈ xs, x.OnWire) → d.len = d.buf.length) := by
  intro f xs
  refine reassembly_sound 1500 (some f) xs ?_
  rintro f' hf e he
  cases hf
  cases he

end Ccnl
