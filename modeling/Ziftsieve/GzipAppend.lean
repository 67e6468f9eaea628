import Ziftsieve.Bloom
import Ziftsieve.GzipExact

/-!
# Gzip streams one after the other

A member is read in one way only, so of two streams one after the other each is
read as it is by itself, and the second one's blocks move by the length of the
first. What the two have to share are the parser's limits.
-/

namespace Ziftsieve

def CompressedBlock.shifted (k : Nat) (b : CompressedBlock) : CompressedBlock :=
  { b with compressedOffset := k + b.compressedOffset }

namespace Gzip

/-! ## Where members stand -/

theorem locateCoded_bytes (i : Nat) : ∀ (p : Nat) (bs : List CodedBlock),
    locateCoded (8 * i + p) bs = (locateCoded p bs).map (.shifted i)
  | _, [] => rfl
  | p, b :: bs => by
    rw [locateCoded, locateCoded, List.map_cons, b.bits_bytes, Nat.add_assoc, locateCoded_bytes]
    congr 1
    rw [CodedBlock.located, CodedBlock.located, b.bits_bytes, Nat.mul_add_div (by decide)]
    rfl

theorem CodedMember.located_add (i k : Nat) (m : CodedMember) : m.located (i + k) = (m.located k).map (.shifted i) := by
  unfold located
  rw [Nat.add_assoc, Nat.mul_add, locateCoded_bytes]

theorem locateMembersCoded_add (i : Nat) : ∀ (k : Nat) (ms : List CodedMember),
    locateMembersCoded (i + k) ms = (locateMembersCoded k ms).map (.shifted i)
  | _, [] => rfl
  | k, m :: ms => by
    rw [locateMembersCoded, locateMembersCoded, List.map_append, m.located_add, Nat.add_assoc, locateMembersCoded_add]

theorem encodeCoded_cons (m : CodedMember) (ms : List CodedMember) :
    encodeCoded (m :: ms) = m.encode ++ encodeCoded ms := rfl

theorem encodeCoded_append (ms ns : List CodedMember) : encodeCoded (ms ++ ns) = encodeCoded ms ++ encodeCoded ns :=
  List.flatMap_append

theorem locateMembersCoded_append : ∀ (i : Nat) (ms ns : List CodedMember), locateMembersCoded i (ms ++ ns) =
    locateMembersCoded i ms ++ (locateMembersCoded 0 ns).map (.shifted (i + (encodeCoded ms).length))
  | i, [], ns => locateMembersCoded_add i 0 ns
  | i, m :: ms, ns => by
    rw [List.cons_append, locateMembersCoded, locateMembersCoded_append, locateMembersCoded, List.append_assoc,
      encodeCoded_cons, List.length_append, Nat.add_assoc]

theorem length_locateMembersCoded : ∀ (i : Nat) (ms : List CodedMember),
    (locateMembersCoded i ms).length = (ms.flatMap (·.blocks)).length
  | _, [] => rfl
  | i, m :: ms => by
    rw [locateMembersCoded, List.length_append, length_locateMembersCoded, List.flatMap_cons, List.length_append,
      CodedMember.located, length_locateCoded]

theorem sum_locateCoded (p : Nat) (bs : List CodedBlock) :
    ((locateCoded p bs).map (·.literals.length)).sum = codedLiterals bs := by
  have hliterals := congrArg (List.map List.length) (locateCoded_literals p bs)
  rw [List.map_map, List.map_map] at hliterals
  exact congrArg List.sum hliterals

theorem sum_locateMembersCoded : ∀ (i : Nat) (ms : List CodedMember),
    ((locateMembersCoded i ms).map (·.literals.length)).sum = codedLiterals (ms.flatMap (·.blocks))
  | _, [] => rfl
  | i, m :: ms => by
    rw [locateMembersCoded, List.map_append, List.sum_append, sum_locateMembersCoded, List.flatMap_cons,
      codedLiterals_append, CodedMember.located, sum_locateCoded]

/-! ## Reading a member in one way -/

theorem member_unique {m n : CodedMember} (hm : Fits [] 0 m) (hn : Fits [] 0 n) {x y : Bytes}
    (h : m.encode ++ x = n.encode ++ y) : m.encode = n.encode ∧ x = y ∧ ∀ i, m.located i = n.located i := by
  have hbits : m.bits ++ bytesBits x = n.bits ++ bytesBits y := by
    rw [← m.bytesBits_encode, ← n.bytesBits_encode, ← bytesBits_append, ← bytesBits_append, h]
  have hat : At (bytesBits (m.encode ++ x)) (8 * 0) (m.bits ++ bytesBits x) := by
    rw [bytesBits_append, m.bytesBits_encode]
    exact At.start _
  have hstart : Synced (m.encode ++ x) (8 * 0) (BitReader.new (m.encode ++ x) 0) := Synced.new (Nat.zero_le _)
  obtain ⟨hr, hsame, -⟩ := (@readMember_recognizes _ _ 0 []).unique
    (fun hq hr => hq.bitOffset.symm.trans hr.bitOffset) hstart ⟨m, hm, rfl, rfl⟩ ⟨n, hn, rfl, rfl⟩ hat hbits
  have hencode : m.encode = n.encode := bytesBits_inj (by rw [m.bytesBits_encode, n.bytesBits_encode, hsame])
  refine ⟨hencode, ?_, fun i => ?_⟩
  · rw [hencode] at h
    exact List.append_cancel_left h
  · have hblocks := congrArg (fun r => r.2.1.blocks) hr
    dsimp only at hblocks
    rw [List.nil_append, List.nil_append] at hblocks
    have hm0 := m.located_add i 0
    have hn0 := n.located_add i 0
    rw [Nat.add_zero] at hm0 hn0
    rw [hm0, hn0, hblocks]

/-- By induction on the members of the first stream. -/
theorem members_unique : ∀ {ms ks : List CodedMember} {x : Bytes}, (∀ m ∈ ms, Fits [] 0 m) → (∀ k ∈ ks, Fits [] 0 k) →
    encodeCoded ms ++ x = encodeCoded ks → ∃ ls ns, ks = ls ++ ns ∧ ls.length = ms.length ∧
      encodeCoded ls = encodeCoded ms ∧ encodeCoded ns = x ∧ ∀ i, locateMembersCoded i ls = locateMembersCoded i ms
  | [], ks, x, _, _, h => ⟨[], ks, rfl, rfl, rfl, h.symm, fun _ => rfl⟩
  | m :: ms, [], x, _, _, h => by
    have hpos := encodeCoded_pos (List.cons_ne_nil m ms)
    have hlen := congrArg List.length h
    rw [List.length_append, show encodeCoded [] = [] from rfl, List.length_nil] at hlen
    omega
  | m :: ms, k :: ks, x, hms, hks, h => by
    obtain ⟨hm, hms⟩ := List.forall_mem_cons.mp hms
    obtain ⟨hk, hks⟩ := List.forall_mem_cons.mp hks
    rw [encodeCoded_cons, encodeCoded_cons, List.append_assoc] at h
    obtain ⟨hencode, hrest, hlocated⟩ := member_unique hm hk h
    obtain ⟨ls, ns, rfl, hlen, hls, hns, hlocate⟩ := members_unique hms hks hrest
    refine ⟨k :: ls, ns, rfl, congrArg (· + 1) hlen, ?_, hns, fun i => ?_⟩
    · rw [encodeCoded_cons, encodeCoded_cons, hencode, hls]
    · rw [locateMembersCoded, locateMembersCoded, hlocated, hencode, hlocate]

/-! ## Streams -/

section
variable {ext : External} {ms ns : List CodedMember}

theorem Legal.fits (h : Legal ext ms) : ∀ m ∈ ms, Fits [] 0 m := by
  intro m hm
  obtain ⟨as, bs, rfl⟩ := List.append_of_mem hm
  have hblocks := h.blocks_le
  have htotal := h.total_le
  rw [List.flatMap_append, List.flatMap_cons, List.length_append, List.length_append] at hblocks
  rw [List.flatMap_append, List.flatMap_cons, codedLiterals_append, codedLiterals_append] at htotal
  refine ⟨?_, ?_⟩
  · rw [List.length_nil]
    omega
  · omega

theorem legal_append : Legal ext (ms ++ ns) ↔ Legal ext ms ∧ Legal ext ns ∧ ms.length + ns.length ≤ 1023 ∧
    (ms.flatMap (·.blocks)).length + (ns.flatMap (·.blocks)).length ≤ maxDeflateBlocksPerMember ∧
    codedLiterals (ms.flatMap (·.blocks)) + codedLiterals (ns.flatMap (·.blocks)) ≤ maxTotalLiterals := by
  constructor
  · rintro ⟨hmembers, hblocks, htotal, hverified⟩
    rw [List.length_append] at hmembers
    rw [List.flatMap_append, List.length_append] at hblocks
    rw [List.flatMap_append, codedLiterals_append] at htotal
    obtain ⟨hms, hns⟩ := List.forall_mem_append.mp hverified
    exact ⟨⟨by omega, by omega, by omega, hms⟩, ⟨by omega, by omega, by omega, hns⟩, hmembers, hblocks, htotal⟩
  · rintro ⟨hms, hns, hmembers, hblocks, htotal⟩
    refine ⟨?_, ?_, ?_, List.forall_mem_append.mpr ⟨hms.verified, hns.verified⟩⟩
    · rwa [List.length_append]
    · rwa [List.flatMap_append, List.length_append]
    · rwa [List.flatMap_append, codedLiterals_append]

/-- A stream of so many members. -/
def HasMembers (ext : External) (data : Bytes) (n : Nat) : Prop :=
  ∃ ms : List CodedMember, ms.length = n ∧ Legal ext ms ∧ encodeCoded ms = data

variable {a b : Bytes} {as : List CompressedBlock}

/-- **Streams one after the other.** What follows an accepted stream is accepted exactly when it is a stream that is
accepted by itself, and the two have no more members, blocks and literals than one stream may have; its blocks come
after those of the first, moved by its length. -/
theorem extractLiterals_append_iff (ha : extractLiterals ext a = .ok as) (hb : b ≠ []) (cs : List CompressedBlock) :
    extractLiterals ext (a ++ b) = .ok cs ↔ ∃ bs m n, extractLiterals ext b = .ok bs ∧
      cs = as ++ bs.map (.shifted a.length) ∧ HasMembers ext a m ∧ HasMembers ext b n ∧ m + n ≤ 1023 ∧
      cs.length ≤ maxDeflateBlocksPerMember ∧ (cs.map (·.literals.length)).sum ≤ maxTotalLiterals := by
  have hlocate : ∀ ms ns : List CodedMember, locateMembersCoded 0 (ms ++ ns) =
      locateMembersCoded 0 ms ++ (locateMembersCoded 0 ns).map (.shifted (encodeCoded ms).length) := by
    intro ms ns
    rw [locateMembersCoded_append, Nat.zero_add]
  have hcount : ∀ ms ns : List CodedMember, (locateMembersCoded 0 (ms ++ ns)).length =
      (ms.flatMap (·.blocks)).length + (ns.flatMap (·.blocks)).length := by
    intro ms ns
    rw [length_locateMembersCoded, List.flatMap_append, List.length_append]
  have hsum : ∀ ms ns : List CodedMember, ((locateMembersCoded 0 (ms ++ ns)).map (·.literals.length)).sum =
      codedLiterals (ms.flatMap (·.blocks)) + codedLiterals (ns.flatMap (·.blocks)) := by
    intro ms ns
    rw [sum_locateMembersCoded, List.flatMap_append, codedLiterals_append]
  constructor
  · intro h
    obtain ⟨ms, -, hms, rfl, rfl⟩ := extractLiterals_parses ha
    obtain ⟨ks, -, hks, hencode, rfl⟩ := extractLiterals_parses h
    obtain ⟨ls, ns, rfl, hlen, hls, rfl, hsame⟩ := members_unique hms.fits hks.fits hencode.symm
    obtain ⟨-, hns, hmembers, hblocks, htotal⟩ := legal_append.mp hks
    have hne : ns ≠ [] := by
      rintro rfl
      exact hb rfl
    refine ⟨_, ms.length, ns.length, extractLiterals_encodeCoded hne hns, ?_, ⟨ms, rfl, hms, rfl⟩, ⟨ns, rfl, hns, rfl⟩,
      by omega, ?_, ?_⟩
    · rw [hlocate, hls, hsame]
    · rwa [hcount]
    · rwa [hsum]
  · rintro ⟨bs, m, n, hbs, rfl, ⟨ms, rfl, hms, rfl⟩, ⟨ns, rfl, hns, rfl⟩, hmembers, hblocks, htotal⟩
    have hms_ne : ms ≠ [] := by
      rintro rfl
      cases ha
    have hns_ne : ns ≠ [] := by
      rintro rfl
      exact hb rfl
    rw [extractLiterals_encodeCoded hms_ne hms] at ha
    rw [extractLiterals_encodeCoded hns_ne hns] at hbs
    cases ha
    cases hbs
    rw [← hlocate] at hblocks htotal ⊢
    rw [hcount] at hblocks
    rw [hsum] at htotal
    have hlegal := legal_append.mpr ⟨hms, hns, hmembers, hblocks, htotal⟩
    rw [← encodeCoded_append]
    exact extractLiterals_encodeCoded (List.append_ne_nil_of_left_ne_nil hms_ne ns) hlegal

end

/-- `"a"` stored. -/
def storedOnce : Bytes := [31, 139, 8, 0, 0, 0, 0, 0, 0, 255, 1, 1, 0, 254, 255, 97, 0, 0, 0, 0, 1, 0, 0, 0]

theorem extractLiterals_append_storedOnce : ∃ bs m n, extractLiterals .fnvOnly storedOnce = .ok bs ∧
    ([⟨10, 6, none, [97]⟩, ⟨34, 6, none, [97]⟩] : List CompressedBlock) =
      [⟨10, 6, none, [97]⟩] ++ bs.map (.shifted storedOnce.length) ∧
    HasMembers .fnvOnly storedOnce m ∧ HasMembers .fnvOnly storedOnce n := by
  have honce : extractLiterals .fnvOnly storedOnce = .ok [⟨10, 6, none, [97]⟩] := by decide +kernel
  have htwice : extractLiterals .fnvOnly (storedOnce ++ storedOnce) =
      .ok [⟨10, 6, none, [97]⟩, ⟨34, 6, none, [97]⟩] := by decide +kernel
  obtain ⟨bs, m, n, hbs, hshift, hm, hn, -⟩ := (extractLiterals_append_iff honce (by decide) _).mp htwice
  exact ⟨bs, m, n, hbs, hshift, hm, hn⟩

end Gzip

end Ziftsieve
