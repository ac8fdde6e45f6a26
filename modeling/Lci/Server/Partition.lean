/-
The parts of the heap: the packets that `lci_dev_init` lays out at its start, and the regions that
`lc_ep_get_baseaddr` hands out behind them. A region is taken off the address that follows the last one and nothing is
compared with the end of the heap, so the parts are safe as long as what was asked for fits.
-/
import Lci.Server.Layout

namespace Lci.Server

/-- `LC_DEV_MEM_SIZE`. -/
def LC_DEV_MEM_SIZE : Nat := 8 * 1024 * 1024

/-- The size of the heap that `lc_server_init` asks for; on the verbs backend it is the size of the registration, the
allocation has a page more that nothing is registered for. -/
def heapSize : Backend → Nat
  | .ibv => 1024 * 1024 * 1024
  | .psm2 => LC_SERVER_NUM_PKTS * LC_PACKET_SIZE * 2 + LC_DEV_MEM_SIZE

/-- The end of the packets rounded up to a page, in the 64 bits of `curr_addr`. -/
def currAddr (heap pageSize : Nat) : Nat :=
  ((heap + pktOffset pageSize LC_SERVER_NUM_PKTS) % 2 ^ 64 + pageSize - 1) % 2 ^ 64 / pageSize * pageSize

/-- `lc_ep_get_baseaddr`: `*addr`, and `curr_addr` after it; it returns `LC_OK` always. -/
def lcEpGetBaseaddr (curr size : Nat) : LcStatus × Nat × Nat := (.ok, curr, (curr + size) % 2 ^ 64)

/-- A range of addresses. -/
structure Region where
  addr : Nat
  size : Nat
deriving DecidableEq, Repr

def Region.Has (r : Region) (x : Nat) : Prop := r.addr ≤ x ∧ x < r.addr + r.size

def Region.Apart (r r' : Region) : Prop := ∀ x, ¬ (r.Has x ∧ r'.Has x)

def Region.Inside (r : Region) (heap size : Nat) : Prop := ∀ x, r.Has x → heap ≤ x ∧ x < heap + size

/-- The regions of a sequence of calls that return `LC_OK`. -/
def baseaddrs : Nat → List Nat → List Region
  | _, [] => []
  | curr, size :: sizes => match lcEpGetBaseaddr curr size with
    | (.ok, addr, curr) => ⟨addr, size⟩ :: baseaddrs curr sizes
    | (.errRetry, _, curr) => baseaddrs curr sizes

/-- Packet `p`. -/
def packetRegion (heap pageSize : Nat) (p : PktId) : Region := ⟨packetAddr heap pageSize p, LC_PACKET_SIZE⟩

/-- Packets and regions have no byte in common, and all lie in the heap. -/
structure Partitioned (b : Backend) (heap pageSize : Nat) (users : List Region) : Prop where
  packets : ∀ p < LC_SERVER_NUM_PKTS, ∀ q < LC_SERVER_NUM_PKTS, p ≠ q →
    (packetRegion heap pageSize p).Apart (packetRegion heap pageSize q)
  pairwise : users.Pairwise Region.Apart
  apart : ∀ r ∈ users, ∀ p < LC_SERVER_NUM_PKTS, r.Apart (packetRegion heap pageSize p)
  packetsInside : ∀ p < LC_SERVER_NUM_PKTS, (packetRegion heap pageSize p).Inside heap (heapSize b)
  usersInside : ∀ r ∈ users, r.Inside heap (heapSize b)

/-! ## The packets -/

theorem packets_apart (heap pageSize : Nat) {p q : Nat} (h : p ≠ q) :
    (packetRegion heap pageSize p).Apart (packetRegion heap pageSize q) := by
  rintro x ⟨⟨h1, h2⟩, h3, h4⟩
  simp only [packetRegion, packetAddr, pktOffset, LC_PACKET_SIZE] at h1 h2 h3 h4
  omega

theorem packetRegion_lt {heap pageSize p : Nat} (hp : p < LC_SERVER_NUM_PKTS) {x : Nat}
    (hx : (packetRegion heap pageSize p).Has x) : heap ≤ x ∧ x < heap + pktOffset pageSize LC_SERVER_NUM_PKTS := by
  obtain ⟨h1, h2⟩ := hx
  simp only [packetRegion, packetAddr, pktOffset, LC_PACKET_SIZE, LC_SERVER_NUM_PKTS] at h1 h2 hp ⊢
  omega

/-- The packets are in the heap exactly when the last of them is. -/
theorem packets_inside_iff {heap pageSize size : Nat} (hp : packetContextSize < pageSize) :
    (∀ p < LC_SERVER_NUM_PKTS, (packetRegion heap pageSize p).Inside heap size) ↔
      pktOffset pageSize LC_SERVER_NUM_PKTS ≤ size := by
  constructor
  · intro h
    have hlast : (packetRegion heap pageSize 1023).Has (heap + pktOffset pageSize LC_SERVER_NUM_PKTS - 1) := by
      constructor <;>
        simp only [packetRegion, packetAddr, pktOffset, LC_PACKET_SIZE, LC_SERVER_NUM_PKTS,
          packetContextSize] at * <;> omega
    have := h 1023 (by decide) _ hlast
    have hpos : 0 < pktOffset pageSize LC_SERVER_NUM_PKTS := by
      simp only [pktOffset, LC_PACKET_SIZE, LC_SERVER_NUM_PKTS]
      omega
    omega
  · intro h p hp x hx
    have := packetRegion_lt hp hx
    omega

/-! ## The regions -/

/-- While the sizes fit the address space, the regions follow one another. -/
theorem baseaddrs_spec {c : Nat} {ns : List Nat} (h : c + ns.sum ≤ 2 ^ 64) :
    (baseaddrs c ns).Pairwise Region.Apart ∧ ∀ r ∈ baseaddrs c ns, ∀ x, r.Has x → c ≤ x ∧ x < c + ns.sum := by
  induction ns generalizing c with
  | nil => exact ⟨List.Pairwise.nil, by simp [baseaddrs]⟩
  | cons n ns ih =>
    rw [List.sum_cons] at h
    rw [List.sum_cons]
    have hstep : baseaddrs c (n :: ns) = ⟨c, n⟩ :: baseaddrs ((c + n) % 2 ^ 64) ns := rfl
    -- what follows: behind the region, or nothing when the address space ends with it
    have hrest : (baseaddrs ((c + n) % 2 ^ 64) ns).Pairwise Region.Apart ∧
        ∀ r ∈ baseaddrs ((c + n) % 2 ^ 64) ns, ∀ x, r.Has x → c + n ≤ x ∧ x < c + n + ns.sum := by
      rcases Nat.lt_or_ge (c + n) (2 ^ 64) with hlt | hge
      · rw [Nat.mod_eq_of_lt hlt]
        exact ih (by omega)
      · have hsum : ns.sum = 0 := by omega
        obtain ⟨h1, h2⟩ := ih (show (c + n) % 2 ^ 64 + ns.sum ≤ 2 ^ 64 by omega)
        refine ⟨h1, fun r hr x hx => ?_⟩
        have := h2 r hr x hx
        omega
    rw [hstep]
    refine ⟨List.pairwise_cons.2 ⟨fun r hr x hx => ?_, hrest.1⟩, fun r hr x hx => ?_⟩
    · have h1 := hrest.2 r hr x hx.2
      have h2 : c ≤ x ∧ x < c + n := hx.1
      omega
    · rcases List.mem_cons.1 hr with rfl | hr
      · have h2 : c ≤ x ∧ x < c + n := hx
        omega
      · have := hrest.2 r hr x hx
        omega

/-- Regions that all lie in the heap have been asked for within it. -/
theorem baseaddrs_fit {heap size : Nat} (h0 : 0 < heap) (hend : heap + size ≤ 2 ^ 64) {c : Nat} (hc : c < 2 ^ 64)
    {ns : List Nat} (h : ∀ r ∈ baseaddrs c ns, r.Inside heap size) :
    ns.sum = 0 ∨ (heap ≤ c ∧ c + ns.sum ≤ heap + size) := by
  induction ns generalizing c with
  | nil => exact .inl rfl
  | cons n ns ih =>
    have hstep : baseaddrs c (n :: ns) = ⟨c, n⟩ :: baseaddrs ((c + n) % 2 ^ 64) ns := rfl
    rw [hstep] at h
    have hrest := ih (Nat.mod_lt _ (by decide)) fun r hr => h r (List.mem_cons_of_mem _ hr)
    have hin : ∀ x, c ≤ x ∧ x < c + n → heap ≤ x ∧ x < heap + size := h ⟨c, n⟩ List.mem_cons_self
    rw [List.sum_cons]
    rcases Nat.eq_zero_or_pos n with rfl | hn
    · rw [Nat.add_zero, Nat.mod_eq_of_lt hc] at hrest
      omega
    · have hfirst := hin c ⟨le_rfl, by omega⟩
      have hlast := hin (c + n - 1) ⟨by omega, by omega⟩
      rcases Nat.lt_or_ge (c + n) (2 ^ 64) with hlt | hge
      · rw [Nat.mod_eq_of_lt hlt] at hrest
        omega
      · omega

/-! ## The first address -/

/-- The offset of the first region: the end of the packets, rounded up to a page. -/
def userOffset (pageSize : Nat) : Nat := (pktOffset pageSize LC_SERVER_NUM_PKTS + pageSize - 1) / pageSize * pageSize

theorem le_userOffset {pageSize : Nat} (hp : 0 < pageSize) :
    pktOffset pageSize LC_SERVER_NUM_PKTS ≤ userOffset pageSize := by
  unfold userOffset
  generalize pktOffset pageSize LC_SERVER_NUM_PKTS = x
  have hsplit := Nat.div_add_mod (x + pageSize - 1) pageSize
  have hlt := Nat.mod_lt (x + pageSize - 1) hp
  rw [Nat.mul_comm pageSize] at hsplit
  omega

/-- In a heap that begins at a page, `curr_addr` is the first address behind the packets, unless that is the end of the
address space and it wraps to zero. -/
theorem currAddr_eq {heap pageSize : Nat} {k : Nat} (hk : k < 31) (hpage : pageSize = 2 ^ k) (halign : pageSize ∣ heap)
    (hfit : heap + pktOffset pageSize LC_SERVER_NUM_PKTS ≤ 2 ^ 64) :
    (currAddr heap pageSize = heap + userOffset pageSize ∧ heap + userOffset pageSize < 2 ^ 64) ∨
      (currAddr heap pageSize = 0 ∧ heap + userOffset pageSize = 2 ^ 64) := by
  have hpos : 0 < pageSize := by rw [hpage]; exact Nat.two_pow_pos k
  have hlt : pageSize < 2 ^ 31 := by rw [hpage]; exact Nat.pow_lt_pow_right (by decide) hk
  obtain ⟨t, rfl⟩ := halign
  obtain ⟨w, hw⟩ : pageSize ∣ 2 ^ 64 := by rw [hpage]; exact Nat.pow_dvd_pow 2 (by omega)
  have hle := le_userOffset hpos
  unfold currAddr
  have huser : userOffset pageSize = (pktOffset pageSize LC_SERVER_NUM_PKTS + pageSize - 1) / pageSize * pageSize := rfl
  have hx : 0 < pktOffset pageSize LC_SERVER_NUM_PKTS := by
    simp only [pktOffset, LC_PACKET_SIZE, LC_SERVER_NUM_PKTS]
    omega
  generalize pktOffset pageSize LC_SERVER_NUM_PKTS = x at *
  have hround : ∀ y, (pageSize * t + y) / pageSize * pageSize = pageSize * t + y / pageSize * pageSize := by
    intro y
    rw [Nat.mul_add_div hpos, Nat.add_mul, Nat.mul_comm t]
  have hsplit := Nat.div_add_mod (x + pageSize - 1) pageSize
  have hmod := Nat.mod_lt (x + pageSize - 1) hpos
  rw [Nat.mul_comm pageSize, ← huser] at hsplit
  rcases Nat.lt_or_ge (pageSize * t + (x + pageSize - 1)) (2 ^ 64) with hsmall | hbig
  · left
    rw [Nat.mod_eq_of_lt (show pageSize * t + x < 2 ^ 64 by omega),
      show pageSize * t + x + pageSize - 1 = pageSize * t + (x + pageSize - 1) by omega,
      Nat.mod_eq_of_lt hsmall, hround, ← huser]
    exact ⟨rfl, by omega⟩
  · right
    constructor
    · -- the sum wraps to less than a page
      have hwrap : ((pageSize * t + x) % 2 ^ 64 + pageSize - 1) % 2 ^ 64 < pageSize := by
        rcases Nat.lt_or_ge (pageSize * t + x) (2 ^ 64) with h | h
        · rw [Nat.mod_eq_of_lt h]
          omega
        · rw [show pageSize * t + x = 2 ^ 64 by omega, Nat.mod_self]
          omega
      rw [Nat.div_eq_of_lt hwrap, Nat.zero_mul]
    · -- a multiple of the page less than a page away from another one
      obtain ⟨u, hu⟩ : ∃ u, userOffset pageSize = pageSize * u := ⟨_, huser.trans (Nat.mul_comm _ _)⟩
      rw [hu] at hsplit hle ⊢
      rw [hw] at hfit hbig ⊢
      rw [← Nat.mul_add]
      congr 1
      have h1 : pageSize * (t + u) < pageSize * (w + 1) := by
        rw [Nat.mul_add, Nat.mul_add]
        omega
      have h2 : pageSize * w < pageSize * (t + u + 1) := by
        rw [Nat.mul_add, Nat.mul_add]
        omega
      have h3 := Nat.lt_of_mul_lt_mul_left h1
      have h4 := Nat.lt_of_mul_lt_mul_left h2
      omega

/-! ## The partition -/

/-- The heap is partitioned safely exactly when its packets fit it, and what was asked for fits behind them. -/
theorem heap_partitioned_iff (b : Backend) {heap pageSize k : Nat} (hk : k < 31) (hpage : pageSize = 2 ^ k)
    (hctx : packetContextSize < pageSize) (halign : pageSize ∣ heap) (hheap : 0 < heap)
    (hend : heap + heapSize b ≤ 2 ^ 64) (sizes : List Nat) :
    Partitioned b heap pageSize (baseaddrs (currAddr heap pageSize) sizes) ↔
      pktOffset pageSize LC_SERVER_NUM_PKTS ≤ heapSize b ∧
        (sizes.sum = 0 ∨ userOffset pageSize + sizes.sum ≤ heapSize b) := by
  have hpos : 0 < pageSize := by omega
  have hle := le_userOffset hpos
  constructor
  · intro h
    have hpkts := (packets_inside_iff hctx).1 h.packetsInside
    refine ⟨hpkts, ?_⟩
    rcases currAddr_eq hk hpage halign (by omega) with ⟨hcurr, hlt⟩ | ⟨hcurr, -⟩
    · rcases baseaddrs_fit hheap hend (hcurr ▸ hlt) h.usersInside with h0 | ⟨-, hfit⟩
      · exact .inl h0
      · rw [hcurr] at hfit
        exact .inr (by omega)
    · -- from address zero on nothing is in the heap
      rcases baseaddrs_fit hheap hend (by rw [hcurr]; decide) h.usersInside with h0 | ⟨hlow, -⟩
      · exact .inl h0
      · omega
  · rintro ⟨hpkts, hsum⟩
    -- every byte of a region is behind the packets and in the heap
    have husers : (baseaddrs (currAddr heap pageSize) sizes).Pairwise Region.Apart ∧
        ∀ r ∈ baseaddrs (currAddr heap pageSize) sizes, ∀ x, r.Has x →
          heap + pktOffset pageSize LC_SERVER_NUM_PKTS ≤ x ∧ x < heap + heapSize b := by
      rcases currAddr_eq hk hpage halign (by omega) with ⟨hcurr, hlt⟩ | ⟨hcurr, hwrap⟩
      · obtain ⟨h1, h2⟩ := @baseaddrs_spec (currAddr heap pageSize) sizes (by omega)
        refine ⟨h1, fun r hr x hx => ?_⟩
        have := h2 r hr x hx
        omega
      · obtain ⟨h1, h2⟩ := @baseaddrs_spec (currAddr heap pageSize) sizes (by omega)
        refine ⟨h1, fun r hr x hx => ?_⟩
        have := h2 r hr x hx
        omega
    refine ⟨fun p _ q _ hpq => packets_apart heap pageSize hpq, husers.1, fun r hr p hp x hx => ?_,
      (packets_inside_iff hctx).2 hpkts, fun r hr x hx => ?_⟩
    · have h1 := husers.2 r hr x hx.1
      have h2 := packetRegion_lt hp hx.2
      omega
    · have := husers.2 r hr x hx
      omega

/-- Three regions behind the packets of a PSM2 heap with pages of 4096 bytes. -/
theorem heap_partitioned_iff_4096 : packetContextSize < 4096 ∧ 4096 + heapSize .psm2 ≤ 2 ^ 64 ∧
    Partitioned .psm2 4096 4096 (baseaddrs (currAddr 4096 4096) [100, 0, 2 ^ 20]) :=
  ⟨by decide, by decide,
    (heap_partitioned_iff .psm2 (k := 12) (by decide) (by decide) (by decide) (by decide) (by decide) (by decide) _).2
      (by decide)⟩

/-- A region as large as a PSM2 heap is handed out with `LC_OK`, and its last byte is behind the end of the heap. -/
theorem region_runs_past_heap : (lcEpGetBaseaddr (currAddr 4096 4096) (2 ^ 25)).1 = .ok ∧
    ¬ Partitioned .psm2 4096 4096 (baseaddrs (currAddr 4096 4096) [2 ^ 25]) := by
  refine ⟨rfl, fun h => ?_⟩
  have hlast := h.usersInside ⟨currAddr 4096 4096, 2 ^ 25⟩ List.mem_cons_self (currAddr 4096 4096 + 2 ^ 25 - 1)
    ⟨by decide, by decide⟩
  exact absurd hlast (by decide)

end Lci.Server
