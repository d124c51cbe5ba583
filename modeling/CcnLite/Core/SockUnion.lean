import CcnLite.Core.Relay
import Mathlib.Data.Set.Defs

/-!
# Socket addresses (`ccnl-sockunion.c`)

`SockUnion` are the addresses of all families, with what `ccnl_addr_cmp` reads of them. It compares
two link-layer addresses up to the `sll_halen` of the first one, which not every caller sets
(`newfaceEth`), and two IPv6 addresses without their scope.

`addrCmp` is right for some addresses (`CmpRight`) when it is an equivalence on them that tells the
peers apart, also for `ccnl_get_face_or_create`. `cmpRight_iff`: it is exactly where two hardware
addresses differ within the length of either, and no two IPv6 addresses differ in the scope alone.
`addrSame_iff` is the link to the addresses of the relay (`SockAddr`), which has no WPAN.
-/

namespace Ccnl

open CRun List

/-! ## The addresses -/

/-- `struct sockaddr_ll`. `addr` is the hardware address, and `halen` is `sll_halen`. -/
structure LinkLayer where
  addr : List UInt8
  halen : Nat
  addr_le : addr.length ≤ 8
  halen_le : halen ≤ 8
  deriving DecidableEq

/-- `sll_addr`: the address with zeros behind it. -/
def LinkLayer.sllAddr (a : LinkLayer) : List UInt8 := a.addr ++ replicate (8 - a.addr.length) 0

/-- `addr_type` and `addr` of `struct ieee802154_addr_sa`. The type is one of `wpan_addr_type_t`. -/
inductive WpanAddr where
  | none
  | short (addr : UInt16)
  | long (hwaddr : List UInt8) (h : hwaddr.length = 8)
  deriving DecidableEq

/-- `sockunion`. A path ends where its first zero is. -/
inductive SockUnion where
  | packet (a : LinkLayer)
  | ieee802154 (panId : UInt16) (a : WpanAddr)
  | inet (addr : UInt32) (port : UInt16)
  | inet6 (addr : List UInt8) (h : addr.length = 16) (port : UInt16) (scopeId : UInt32)
  | unix (path : List UInt8) (h : 0 ∉ path)
  deriving DecidableEq

/-- `sa_family`. -/
inductive SaFamily where
  | packet
  | ieee802154
  | inet
  | inet6
  | unix
  deriving DecidableEq

def SockUnion.family : SockUnion → SaFamily
  | packet .. => .packet
  | ieee802154 .. => .ieee802154
  | inet .. => .inet
  | inet6 .. => .inet6
  | unix .. => .unix

/-- The addresses are of one peer: family and address are the same. -/
def SockUnion.SamePeer : SockUnion → SockUnion → Prop
  | packet a, packet b => a.addr = b.addr
  | a, b => a = b

/-! ## `ccnl_addr_cmp` -/

/-- `memcmp` of as many bytes. -/
def memcmp : List UInt8 → List UInt8 → Int
  | a :: as, b :: bs => if a = b then memcmp as bs else a.toNat - b.toNat
  | _, _ => 0

/-- `strcmp`. The zero that ends a string is less than any byte of the other one. -/
def strcmp : List UInt8 → List UInt8 → Int
  | a :: as, b :: bs => if a = b then strcmp as bs else a.toNat - b.toNat
  | a :: _, [] => a.toNat
  | [], b :: _ => -b.toNat
  | [], [] => 0

/-- The addresses of one PAN. -/
def WpanAddr.cmp : WpanAddr → WpanAddr → Int
  | none, none => 0
  | short a, short b => if a = b then 0 else -1
  | long a _, long b _ => memcmp a b
  | _, _ => -1

/-- `ccnl_addr_cmp`. -/
def addrCmp : SockUnion → SockUnion → Int
  | .packet a, .packet b => memcmp (a.sllAddr.take a.halen) (b.sllAddr.take a.halen)
  | .ieee802154 p a, .ieee802154 q b => if p ≠ q then -1 else a.cmp b
  | .inet a p, .inet b q => if a = b ∧ p = q then 0 else -1
  | .inet6 a _ p _, .inet6 b _ q _ => if memcmp a b = 0 ∧ p = q then 0 else -1
  | .unix a _, .unix b _ => strcmp a b
  | _, _ => -1

/-- The address of the face that `ccnl_mgmt_newface` makes for a host in an Ethernet: the memory was
set to 0, and `sll_halen` is not written. -/
def newfaceEth (host : List UInt8) (h : host.length = 6) : SockUnion :=
  .packet ⟨host, 0, by omega, by omega⟩

/-! ## `ccnl_get_face_or_create` -/

/-- `struct ccnl_face_s`: what the search reads. A local face has no peer. -/
structure PeerFace where
  faceid : Nat
  ifndx : Int
  peer : Option SockUnion
  deriving DecidableEq

/-- The faces and the addresses of the interfaces. -/
structure FaceTable where
  faces : List PeerFace
  seqno : Nat
  ifs : List SockUnion
  deriving DecidableEq

/-- The face that is made once the interface is known. -/
def FaceTable.create (t : FaceTable) (ifndx : Int) (sa : Option SockUnion) : FaceTable × PeerFace :=
  let f : PeerFace := ⟨t.seqno + 1, if sa.isSome then ifndx else -1, sa⟩
  (⟨f :: t.faces, t.seqno + 1, t.ifs⟩, f)

/-- `ccnl_get_face_or_create`. -/
def FaceTable.getFaceOrCreate (t : FaceTable) (ifndx : Int) (sa : Option SockUnion) :
    FaceTable × Option PeerFace :=
  match sa with
  | none =>
    match t.faces.find? (·.ifndx == -1) with
    | some f => (t, f)
    | none => (t.create ifndx none).map id some
  | some a =>
    match t.faces.find? fun f =>
        ifndx != -1 && f.ifndx == ifndx && f.peer.any (addrCmp · a == 0) with
    | some f => (t, f)
    | none =>
      if ifndx = -1 then
        match t.ifs.findIdx? (·.family == a.family) with
        | none => (t, none)
        | some i => (t.create i a).map id some
      else (t.create ifndx a).map id some

/-! ## What is wanted -/

/-- On the addresses of `S`, `ccnl_addr_cmp` is 0 as an equivalence relation that only holds between
addresses of one peer, and a face that is looked up is one of that peer. -/
structure CmpRight (S : Set SockUnion) : Prop where
  refl : ∀ a ∈ S, addrCmp a a = 0
  symm : ∀ a ∈ S, ∀ b ∈ S, addrCmp a b = 0 → addrCmp b a = 0
  trans : ∀ a ∈ S, ∀ b ∈ S, ∀ c ∈ S, addrCmp a b = 0 → addrCmp b c = 0 → addrCmp a c = 0
  same : ∀ a ∈ S, ∀ b ∈ S, addrCmp a b = 0 → a.SamePeer b
  lookup : ∀ (t t' : FaceTable) (ifndx : Int) (sa : SockUnion) (f : PeerFace), sa ∈ S →
    (∀ x ∈ t.faces, ∀ p ∈ x.peer, p ∈ S) → t.getFaceOrCreate ifndx sa = (t', some f) →
    ∃ p ∈ f.peer, p.SamePeer sa

/-- Two hardware addresses that are not the same differ within the length of the first one, and two
addresses of IPv6 do not differ in the scope alone. -/
structure ToldApart (S : Set SockUnion) : Prop where
  packet : ∀ a b, .packet a ∈ S → .packet b ∈ S → a.addr ≠ b.addr →
    ∃ i < a.halen, a.sllAddr[i]? ≠ b.sllAddr[i]?
  inet6 : ∀ a h p s s', .inet6 a h p s ∈ S → .inet6 a h p s' ∈ S → s = s'

section Cmp

variable {S : Set SockUnion} {a b c : SockUnion} {xs ys : List UInt8} {l m : LinkLayer}

theorem LinkLayer.length_sllAddr (l : LinkLayer) : l.sllAddr.length = 8 := by
  have := l.addr_le
  rw [sllAddr, length_append, length_replicate]
  omega

theorem sub_toNat_eq_zero {x y : UInt8} : (x.toNat : Int) - y.toNat = 0 ↔ x = y := by
  rw [Int.sub_eq_zero, Int.ofNat_inj, UInt8.toNat_inj]

theorem memcmp_eq_zero (h : xs.length = ys.length) : memcmp xs ys = 0 ↔ xs = ys := by
  induction xs generalizing ys with
  | nil =>
    obtain rfl := length_eq_zero_iff.mp h.symm
    exact iff_of_true rfl rfl
  | cons x xs ih =>
    cases ys with
    | nil => cases h
    | cons y ys =>
      rw [memcmp, cons.injEq]
      split
      · rename_i heq
        rw [ih (Nat.succ.inj h)]
        exact (and_iff_right heq).symm
      · rename_i hne
        exact iff_of_false (fun h0 => hne (sub_toNat_eq_zero.mp h0)) fun h => hne h.1

theorem strcmp_eq_zero (hx : 0 ∉ xs) (hy : 0 ∉ ys) : strcmp xs ys = 0 ↔ xs = ys := by
  induction xs generalizing ys with
  | nil =>
    cases ys with
    | nil => exact iff_of_true rfl rfl
    | cons y ys =>
      refine iff_of_false (fun h => hy ?_) nofun
      have hzero : y = 0 := UInt8.toNat_inj.mp (by rw [strcmp] at h; simpa using h)
      exact hzero ▸ mem_cons_self
  | cons x xs ih =>
    cases ys with
    | nil =>
      refine iff_of_false (fun h => hx ?_) nofun
      have hzero : x = 0 := UInt8.toNat_inj.mp (by rw [strcmp] at h; simpa using h)
      exact hzero ▸ mem_cons_self
    | cons y ys =>
      rw [strcmp, cons.injEq]
      split
      · rename_i heq
        rw [ih (fun h => hx (mem_cons_of_mem _ h)) fun h => hy (mem_cons_of_mem _ h)]
        exact (and_iff_right heq).symm
      · rename_i hne
        exact iff_of_false (fun h0 => hne (sub_toNat_eq_zero.mp h0)) fun h => hne h.1

/-! ### Link-layer addresses -/

theorem addrCmp_packet :
    addrCmp (.packet l) (.packet m) = 0 ↔ l.sllAddr.take l.halen = m.sllAddr.take l.halen :=
  memcmp_eq_zero (by rw [length_take, length_take, l.length_sllAddr, m.length_sllAddr])

/-- The first `n` bytes are not the same exactly when one of them is not. -/
theorem take_ne_iff (n : Nat) : xs.take n ≠ ys.take n ↔ ∃ i < n, xs[i]? ≠ ys[i]? := by
  have hext : xs.take n = ys.take n ↔ ∀ i, (xs.take n)[i]? = (ys.take n)[i]? :=
    ⟨fun h i => congrArg (·[i]?) h, ext_getElem?⟩
  rw [Ne, hext, not_forall]
  refine exists_congr fun i => ?_
  by_cases hi : i < n
  · rw [getElem?_take_of_lt hi, getElem?_take_of_lt hi]
    exact (and_iff_right hi).symm
  · rw [getElem?_take_eq_none (by omega), getElem?_take_eq_none (by omega)]
    exact iff_of_false (fun h => h rfl) fun h => hi h.1

/-! ### The other families -/

theorem addrCmp_inet6 {x y : List UInt8} {hx hy} {p q : UInt16} {s s' : UInt32} :
    addrCmp (.inet6 x hx p s) (.inet6 y hy q s') = 0 ↔ x = y ∧ p = q := by
  rw [addrCmp, ← memcmp_eq_zero (hx.trans hy.symm)]
  split
  · rename_i h
    exact iff_of_true rfl h
  · rename_i h
    exact iff_of_false (by decide) h

theorem WpanAddr.cmp_eq_zero {a b : WpanAddr} : a.cmp b = 0 ↔ a = b := by
  cases a <;> cases b <;> simp only [cmp, reduceCtorEq, short.injEq, long.injEq]
  case short.short x y => by_cases h : x = y <;> simp [h]
  case long.long x hx y hy => exact memcmp_eq_zero (hx.trans hy.symm)

/-- `ccnl_addr_cmp` is 0 for the addresses of one peer. -/
theorem addrCmp_of_samePeer (h : a.SamePeer b) : addrCmp a b = 0 := by
  cases a <;> cases b <;> simp only [SockUnion.SamePeer, reduceCtorEq] at h
  case packet.packet l m =>
    rw [addrCmp_packet, LinkLayer.sllAddr, LinkLayer.sllAddr, h]
  case ieee802154.ieee802154 =>
    cases h
    simp [addrCmp, WpanAddr.cmp_eq_zero]
  case inet.inet =>
    cases h
    simp [addrCmp]
  case inet6.inet6 =>
    cases h
    exact addrCmp_inet6.mpr ⟨rfl, rfl⟩
  case unix.unix x hx _ _ =>
    cases h
    exact (strcmp_eq_zero hx hx).mpr rfl

/-- And for no others, if the addresses are told apart. -/
theorem samePeer_of_addrCmp (hS : ToldApart S) (ha : a ∈ S) (hb : b ∈ S) (h : addrCmp a b = 0) :
    a.SamePeer b := by
  cases a <;> cases b
  case packet.packet l m =>
    by_contra hne
    have hdiff := (take_ne_iff _).mpr (hS.packet l m ha hb hne)
    exact hdiff (addrCmp_packet.mp h)
  case ieee802154.ieee802154 p x q y =>
    rw [addrCmp] at h
    split at h
    · cases h
    · rename_i hp
      obtain rfl := not_not.mp hp
      rw [WpanAddr.cmp_eq_zero.mp h]
      rfl
  case inet.inet x p y q =>
    rw [addrCmp] at h
    split at h
    · rename_i heq
      rw [heq.1, heq.2]
      rfl
    · cases h
  case inet6.inet6 x hx p s y hy q s' =>
    obtain ⟨rfl, rfl⟩ := addrCmp_inet6.mp h
    obtain rfl := hS.inet6 x hx p s s' ha hb
    rfl
  case unix.unix x hx y hy =>
    obtain rfl := (strcmp_eq_zero hx hy).mp h
    rfl
  all_goals cases h

theorem SockUnion.SamePeer.symm (h : a.SamePeer b) : b.SamePeer a := by
  cases a <;> cases b <;> exact Eq.symm h

theorem SockUnion.SamePeer.trans (h : a.SamePeer b) (h' : b.SamePeer c) : a.SamePeer c := by
  cases a <;> cases b <;> cases c <;> first | exact Eq.trans h h' | cases h | cases h'

theorem SockUnion.SamePeer.refl (a : SockUnion) : a.SamePeer a := by
  cases a <;> rfl

/-- The face that comes back was found with `ccnl_addr_cmp`, or it is new. -/
theorem getFaceOrCreate_peer {t t' : FaceTable} {ifndx : Int} {f : PeerFace}
    (h : t.getFaceOrCreate ifndx (some a) = (t', some f)) :
    f.peer = some a ∨ f ∈ t.faces ∧ ∃ p ∈ f.peer, addrCmp p a = 0 := by
  unfold FaceTable.getFaceOrCreate at h
  simp only at h
  split at h
  · rename_i x hx
    cases h
    have hfound := find?_some hx
    simp only [Bool.and_eq_true, Option.any_eq_true, beq_iff_eq] at hfound
    exact .inr ⟨mem_of_find?_eq_some hx, hfound.2⟩
  · split at h
    · split at h
      · cases h
      · cases h
        exact .inl rfl
    · cases h
      exact .inl rfl

end Cmp

/-- `ccnl_addr_cmp` is right on some addresses exactly when they are told apart by what it reads. -/
theorem cmpRight_iff (S : Set SockUnion) : CmpRight S ↔ ToldApart S := by
  constructor
  · intro h
    refine ⟨fun l m hl hm hne => ?_, fun x hx p s s' hs hs' => ?_⟩
    · rw [← take_ne_iff]
      exact fun heq => hne (h.same _ hl _ hm (addrCmp_packet.mpr heq))
    · have hsame := h.same _ hs _ hs' (addrCmp_inet6.mpr ⟨rfl, rfl⟩)
      exact (SockUnion.inet6.inj hsame).2.2
  · intro h
    have hsame := fun a ha b hb => @samePeer_of_addrCmp S a b h ha hb
    refine ⟨fun a _ => addrCmp_of_samePeer (.refl a), fun a ha b hb hab => ?_,
      fun a ha b hb c hc hab hbc => ?_, hsame, fun t t' ifndx sa f hsa ht hf => ?_⟩
    · exact addrCmp_of_samePeer (hsame a ha b hb hab).symm
    · exact addrCmp_of_samePeer ((hsame a ha b hb hab).trans (hsame b hb c hc hbc))
    · rcases getFaceOrCreate_peer hf with hnew | ⟨hmem, p, hp, hcmp⟩
      · exact ⟨sa, hnew, .refl sa⟩
      · exact ⟨p, hp, hsame p (ht f hmem p hp) sa hsa hcmp⟩

/-- Hardware addresses of one length are told apart when `sll_halen` is set. -/
theorem toldApart_of_halen {S : Set SockUnion} {n : Nat}
    (h : ∀ l, .packet l ∈ S → l.halen = n ∧ l.addr.length = n)
    (hscope : ∀ x hx p s s', .inet6 x hx p s ∈ S → .inet6 x hx p s' ∈ S → s = s') :
    ToldApart S := by
  refine ⟨fun l m hl hm hne => take_ne_iff _ |>.mp ?_, hscope⟩
  have htake : ∀ l, .packet l ∈ S → l.sllAddr.take n = l.addr := fun l hl =>
    take_left' (h l hl).2
  rw [(h l hl).1, htake l hl, htake m hm]
  exact hne

/-- The face that the management made for the host 2:0:0:0:0:1 gets what the host 2:0:0:0:0:2
sends. -/
theorem newfaceEth_found : ¬ CmpRight Set.univ := by
  intro h
  let host : SockUnion := newfaceEth [2, 0, 0, 0, 0, 1] rfl
  let sender : SockUnion := .packet ⟨[2, 0, 0, 0, 0, 2], 6, by decide, by decide⟩
  let t : FaceTable := (FaceTable.getFaceOrCreate ⟨[], 0, [sender]⟩ (-1) (some host)).1
  obtain ⟨p, hp, hsame⟩ := h.lookup t t 0 sender ⟨1, 0, some host⟩ (Set.mem_univ _)
    (fun _ _ _ _ => Set.mem_univ _) (by decide)
  obtain rfl : host = p := by simpa using hp
  have hne : ([2, 0, 0, 0, 0, 1] : List UInt8) ≠ [2, 0, 0, 0, 0, 2] := by decide
  exact hne hsame

/-! ## The addresses of the relay -/

/-- The address as the relay has it. -/
def SockUnion.sockAddr : SockUnion → Option SockAddr
  | packet l => some (.packet l.sllAddr l.halen)
  | ieee802154 .. => none
  | inet a p => some (.inet a.toNat p.toNat)
  | inet6 a _ p _ => some (.inet6 a p.toNat)
  | unix p _ => some (.unix p)

/-- `addrSame` is `ccnl_addr_cmp` for these. -/
theorem addrSame_iff {a b : SockUnion} {x y : SockAddr} (hx : a.sockAddr = some x)
    (hy : b.sockAddr = some y) : addrSame x y = true ↔ addrCmp a b = 0 := by
  cases a <;> cases b <;>
    simp only [SockUnion.sockAddr, Option.some.injEq, reduceCtorEq] at hx hy <;> subst hx hy
  case packet.packet => rw [addrCmp_packet, addrSame, beq_iff_eq]
  case inet.inet => simp [addrSame, addrCmp, UInt32.toNat_inj, UInt16.toNat_inj]
  case inet6.inet6 => simp [addrSame, addrCmp_inet6, UInt16.toNat_inj]
  case unix.unix x hx y hy => rw [addrSame, beq_iff_eq, addrCmp, strcmp_eq_zero hx hy]
  all_goals simp [addrSame, addrCmp]

end Ccnl
