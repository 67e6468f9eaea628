import Ziftsieve.FseSound
import Ziftsieve.LiteralsSound

/-!
# The descriptions of a Huffman code

Which bytes `read_weights` takes for the description of a code: weights two to a
byte, or the header of an FSE table and a stream that two decoders of the table read
to behind its end.
-/

namespace Ziftsieve.Zstd

/-! ## Descriptions -/

inductive Tree where
  | direct (weights : List Nat) (spare : Nat)
  | compressed (header : Fse.Header) (filler bits : List Bool) (updates : Nat)

namespace Tree

/-- The weights that are given; the last one of the code is implied. -/
def weights : Tree → List Nat
  | direct ws _ => ws
  | compressed h _ bits u => weightsUpTo h.table bits u

def bytes : Tree → Bytes
  | direct ws spare => UInt8.ofNat (127 + ws.length) :: nibbles spare ws
  | compressed h filler bits _ => encodeDescription h filler bits

def Readable : Tree → Prop
  | direct ws spare => 0 < ws.length ∧ ws.length ≤ 128 ∧ spare < 16 ∧ ∀ w ∈ ws, w < 16
  | compressed h filler bits u => Written h filler bits u

end Tree

/-! ## Weights two to a byte -/

def ofNibbles : Bytes → List Nat
  | [] => []
  | b :: bs => b.toNat / 16 :: b.toNat % 16 :: ofNibbles bs

theorem length_ofNibbles : ∀ bs : Bytes, (ofNibbles bs).length = 2 * bs.length
  | [] => rfl
  | b :: bs => by
    rw [ofNibbles, List.length_cons, List.length_cons, length_ofNibbles bs, List.length_cons]
    omega

theorem ofNibbles_lt : ∀ {bs : Bytes}, ∀ w ∈ ofNibbles bs, w < 16
  | b :: bs, w, hw => by
    have hb := b.toNat_lt
    rcases List.mem_cons.mp hw with rfl | hw
    · omega
    rcases List.mem_cons.mp hw with rfl | hw
    · omega
    · exact ofNibbles_lt w hw

theorem getElem?_ofNibbles : ∀ (bs : Bytes) (i : Nat), (ofNibbles bs)[i]? =
    bs[i / 2]?.map fun b => if i % 2 = 0 then b.toNat >>> 4 else b.toNat &&& 0x0F
  | [], i => by rw [ofNibbles, List.getElem?_nil, List.getElem?_nil]; rfl
  | b :: bs, 0 => by
    rw [ofNibbles, List.getElem?_cons_zero, Nat.zero_div, List.getElem?_cons_zero, Option.map_some, if_pos rfl,
      Nat.shiftRight_eq_div_pow]
  | b :: bs, 1 => by
    rw [ofNibbles, List.getElem?_cons_succ, List.getElem?_cons_zero, show 1 / 2 = 0 from rfl, List.getElem?_cons_zero,
      Option.map_some, if_neg (by decide), show 0x0F = 2 ^ 4 - 1 from rfl, Nat.and_two_pow_sub_one_eq_mod]
  | b :: bs, i + 2 => by
    rw [ofNibbles, List.getElem?_cons_succ, List.getElem?_cons_succ, getElem?_ofNibbles bs i,
      show (i + 2) / 2 = i / 2 + 1 by omega, List.getElem?_cons_succ, show (i + 2) % 2 = i % 2 by omega]

theorem ofNibbles_nibbles {spare : Nat} (hspare : spare < 16) (rest : Bytes) : ∀ {ws : List Nat}, (∀ w ∈ ws, w < 16) →
    (ofNibbles (nibbles spare ws ++ rest)).take ws.length = ws
  | [], _ => List.take_zero
  | [w], hws => by
    have hw := hws w List.mem_cons_self
    have hbyte : (UInt8.ofNat (16 * w + spare)).toNat = 16 * w + spare := by
      rw [UInt8.toNat_ofNat']
      omega
    rw [nibbles, List.singleton_append, ofNibbles, hbyte, List.length_singleton, List.take_succ_cons, List.take_zero,
      show (16 * w + spare) / 16 = w by omega]
  | v :: w :: ws, hws => by
    have hv := hws v List.mem_cons_self
    have hw := hws w (List.mem_cons_of_mem _ List.mem_cons_self)
    have hbyte : (UInt8.ofNat (16 * v + w)).toNat = 16 * v + w := by
      rw [UInt8.toNat_ofNat']
      omega
    have hrest : (ofNibbles (nibbles spare ws ++ rest)).take ws.length = ws :=
      ofNibbles_nibbles hspare rest fun u hu => hws u (List.mem_cons_of_mem _ (List.mem_cons_of_mem _ hu))
    rw [nibbles, List.cons_append, ofNibbles, hbyte, List.length_cons, List.length_cons, List.take_succ_cons,
      List.take_succ_cons, hrest, show (16 * v + w) / 16 = v by omega, show (16 * v + w) % 16 = w by omega]

/-- The bytes that weights are taken from are those of the weights, with what is beside a last one alone. -/
theorem exists_nibbles : ∀ {n : Nat} {bs : Bytes}, (n + 1) / 2 ≤ bs.length → ∃ spare < 16,
    nibbles spare ((ofNibbles bs).take n) <+: bs
  | 0, bs, _ => ⟨0, by decide, List.nil_prefix⟩
  | _ + 1, [], h => by
    rw [List.length_nil] at h
    omega
  | 1, b :: bs, _ => by
    have hb := b.toNat_lt
    refine ⟨b.toNat % 16, Nat.mod_lt _ (by decide), ?_⟩
    rw [ofNibbles, List.take_succ_cons, List.take_zero, nibbles, Nat.div_add_mod, UInt8.ofNat_toNat]
    exact ⟨bs, rfl⟩
  | n + 2, b :: bs, h => by
    have hb := b.toNat_lt
    rw [List.length_cons] at h
    obtain ⟨spare, hspare, hbegins⟩ := exists_nibbles (show (n + 1) / 2 ≤ bs.length by omega)
    refine ⟨spare, hspare, ?_⟩
    rw [ofNibbles, List.take_succ_cons, List.take_succ_cons, nibbles, Nat.div_add_mod, UInt8.ofNat_toNat]
    exact List.cons_prefix_cons.mpr ⟨rfl, hbegins⟩

theorem readDirectWeights_eq {header : Nat} {raw : Bytes} : readDirectWeights header raw =
    if (header - 127 + 1) / 2 ≤ raw.length then .ok ((ofNibbles raw).take (header - 127), 8 + 4 * (header - 127))
    else fail () := by
  obtain ⟨n, hn⟩ : ∃ n, header - 127 = n := ⟨_, rfl⟩
  have hneeded : (if n % 2 = 0 then n / 2 else n / 2 + 1) = (n + 1) / 2 := by split <;> omega
  unfold readDirectWeights
  simp only [hn, hneeded]
  by_cases hlen : (n + 1) / 2 ≤ raw.length
  · rw [failIf_false _ (Nat.not_lt.mpr hlen), Run.ok_bind, if_pos hlen]
    have hnib := length_ofNibbles raw
    have hfold : Gives ((List.range n).foldlM (directTurn raw) (List.replicate n 0))
        fun ws : List Nat => ws.length = n ∧ ∀ i < n, ws[i]? = (ofNibbles raw)[i]? := by
      refine Gives.foldlM_range (I := fun k (ws : List Nat) => ws.length = n ∧ ∀ i < k, ws[i]? = (ofNibbles raw)[i]?) ?_
        ⟨List.length_replicate, fun i hi => absurd hi (Nat.not_lt_zero i)⟩
      rintro k hk ws ⟨hws, hsame⟩
      have hin : k / 2 < raw.length := by omega
      unfold directTurn
      rw [index_eq hin, Run.ok_bind, setAt_eq (by omega)]
      refine Gives.ok ⟨by rw [List.length_set, hws], fun i hi => ?_⟩
      by_cases hlast : k = i
      · rw [← hlast, List.getElem?_set_self (by omega), getElem?_ofNibbles, List.getElem?_eq_getElem hin, Option.map_some]
      · rw [List.getElem?_set_ne hlast, hsame i (by omega)]
    obtain ⟨ws, hws, hlength, hsame⟩ := hfold
    have heq : ws = (ofNibbles raw).take n := by
      refine List.ext_getElem? fun i => ?_
      by_cases hi : i < n
      · rw [List.getElem?_take_of_lt hi, hsame i hi]
      · rw [List.getElem?_eq_none (by omega), List.getElem?_eq_none (by rw [List.length_take]; omega)]
    rw [hws, heq]
    rfl
  · rw [failIf_true _ (Nat.lt_of_not_le hlen), if_neg hlen]
    rfl

/-! ## Tables -/

namespace Fse

/-- A table is built from a header, which ends within a byte. -/
theorem header_of_buildDecoder {source : Bytes} (hshort : source.length * 8 < 2 ^ 64) {t : FSETable} {used : Nat}
    (h : (FSETable.new 255).buildDecoder source 6 = .ok (t, used)) : ∃ (hd : Header) (filler : List Bool),
      hd.Legal 255 6 ∧ hd.Fills filler ∧ hd.bytes filler <+: source ∧ t = hd.table ∧ used = hd.size := by
  unfold FSETable.buildDecoder FSETable.new at h
  obtain ⟨r, hread, h⟩ := Run.bind_eq_ok.mp h
  obtain ⟨hd, after, hlegal, hbits, hends⟩ := header_of_read hshort hread
  obtain rfl := Except.ok.inj (hread.symm.trans (readProbabilities_header hshort hlegal hbits hends))
  obtain ⟨decode, hdecode, h⟩ := Run.bind_eq_ok.mp h
  obtain rfl := Except.ok.inj (hdecode.symm.trans hlegal.built.1)
  obtain ⟨rfl, rfl⟩ := Prod.mk.inj (Except.ok.inj h)
  have hlen := congrArg List.length hbits
  rw [length_bytesBits, List.length_append] at hlen
  have hf : hd.Fills (after.take (padTo8 hd.bits.length)) := by
    unfold Header.Fills
    rw [List.length_take]
    unfold padTo8
    omega
  refine ⟨hd, after.take (padTo8 hd.bits.length), hlegal, hf, ?_, rfl, rfl⟩
  have hat : At (bytesBits source) (8 * 0) (bytesBits (hd.bytes (after.take (padTo8 hd.bits.length))) ++
      after.drop (padTo8 hd.bits.length)) := by
    refine ⟨Nat.zero_le _, ?_⟩
    rw [hf.bytesBits, List.append_assoc, List.take_append_drop, ← hbits]
    rfl
  obtain ⟨zs, hzs⟩ := hat.bytes
  exact ⟨zs, hzs.drop.symm⟩

end Fse

theorem eq_packMarked {stream : Bytes} {padding : Nat} {bits : List Bool} (hpadding : padding ≤ 7)
    (h : backward stream = marked padding bits) : stream = packMarked bits := by
  have hlen := congrArg List.length h
  rw [length_backward, marked, List.length_append, List.length_replicate, List.length_cons] at hlen
  have hpad : padding = padTo8 (1 + bits.length) := by
    unfold padTo8
    omega
  rw [hpad, ← backward_packMarked] at h
  exact bytesBits_inj (List.reverse_injective h)

/-! ## Reading -/

theorem Tree.Readable.readWeights {t : Tree} (ht : t.Readable) {rest : Bytes} (hshort : (t.bytes ++ rest).length * 8 < 2 ^ 64) :
    readWeights (t.bytes ++ rest) = .ok (t.weights, t.bytes.length) := by
  cases t with
  | compressed h filler bits u => exact Written.readWeights ht hshort
  | direct ws spare =>
    obtain ⟨hpos, hmany, hspare, hws⟩ := ht
    have hlen := length_nibbles spare ws
    have hheader : (UInt8.ofNat (127 + ws.length)).toNat = 127 + ws.length := by
      rw [UInt8.toNat_ofNat']
      omega
    have hstart := At.start (UInt8.ofNat (127 + ws.length) :: (nibbles spare ws ++ rest))
    unfold Tree.bytes Tree.weights Zstd.readWeights
    simp only
    rw [List.cons_append, failIf_false _ (List.cons_ne_nil _ _), Run.ok_bind, hstart.index, Run.ok_bind]
    rw [hstart.tail.slice_rest, Run.ok_bind, hheader, if_neg (by omega), readDirectWeights_eq, Nat.add_sub_cancel_left,
      if_pos (by rw [List.length_append]; omega), Run.ok_bind, ofNibbles_nibbles hspare rest hws]
    rw [List.length_cons, hlen]
    simp only [Run.pure_eq, Except.ok.injEq, Prod.mk.injEq, true_and]
    split <;> omega

theorem readFseWeights_marked {header : Nat} (hheader : header ≤ 127) {fseStream : Bytes} {r : List Nat × Nat}
    (h : readFseWeights header fseStream = .ok r) : header ≤ fseStream.length ∧ ∃ table used padding bits,
      (Fse.FSETable.new 255).buildDecoder fseStream 6 = .ok (table, used) ∧ used ≤ header ∧ padding ≤ 7 ∧
      backward ((fseStream.drop used).take (header - used)) = marked padding bits := by
  unfold readFseWeights at h
  obtain ⟨_, hlong, h⟩ := Run.bind_eq_ok.mp h
  obtain ⟨⟨table, used⟩, htable, h⟩ := Run.bind_eq_ok.mp h
  obtain ⟨_, hused, h⟩ := Run.bind_eq_ok.mp h
  obtain ⟨compressed, hcompressed, h⟩ := Run.bind_eq_ok.mp h
  obtain ⟨_, -, h⟩ := Run.bind_eq_ok.mp h
  obtain ⟨stream, hstream, h⟩ := Run.bind_eq_ok.mp h
  obtain ⟨_, -, h⟩ := Run.bind_eq_ok.mp h
  obtain ⟨_, -, h⟩ := Run.bind_eq_ok.mp h
  obtain ⟨br, hskip, -⟩ := Run.bind_eq_ok.mp h
  rw [failIf_eq_ok] at hlong hused
  rw [slice_eq_ok, List.take_of_length_le (by rw [List.length_drop])] at hcompressed
  rw [slice_eq_ok, List.drop_zero, Nat.sub_zero, ← hcompressed.2] at hstream
  have hshort : stream.length ≤ 127 := by
    rw [← hstream.2, List.length_take]
    omega
  obtain ⟨padding, bits, hpadding, hmarked⟩ := skipPadding_inv
    (BitReaderReversed.reads_new (show stream.length * 8 < 2 ^ 63 by omega)) hskip
  exact ⟨Nat.le_of_not_lt hlong, table, used, padding, bits, htable, Nat.le_of_not_lt hused, hpadding, hstream.2 ▸ hmarked⟩

/-- What is read from an FSE stream was written so. -/
theorem written_of_read {header : UInt8} (hheader : header.toNat ≤ 127) {fseStream : Bytes} {r : List Nat × Nat}
    (hshort : fseStream.length * 8 < 2 ^ 64) (h : readFseWeights header.toNat fseStream = .ok r) :
    ∃ hd filler bits u, Written hd filler bits u ∧ encodeDescription hd filler bits <+: header :: fseStream := by
  obtain ⟨hlong, table, used, padding, bits, htable, hused, hpadding, hmarked⟩ := readFseWeights_marked hheader h
  obtain ⟨table', used', padding', bits', u, htable', hmarked', -, hu, hend, hinside⟩ := readFseWeights_ok hheader h
  obtain ⟨rfl, rfl⟩ := Prod.mk.inj (Except.ok.inj (htable.symm.trans htable'))
  obtain ⟨-, rfl⟩ := marked_inj (hmarked.symm.trans hmarked')
  obtain ⟨hd, filler, hlegal, hf, ⟨rest, rfl⟩, rfl, rfl⟩ := Fse.header_of_buildDecoder hshort htable
  have hbytes := hf.length
  rw [← hbytes, List.drop_left, hbytes] at hmarked
  have hstream := eq_packMarked hpadding hmarked
  rw [List.length_append, hbytes] at hlong
  have hlen : (packMarked bits).length = header.toNat - hd.size := by
    rw [← hstream, List.length_take]
    omega
  have hbody : (descriptionBody hd filler bits).length = header.toNat := by
    rw [descriptionBody, List.length_append, hbytes, hlen]
    omega
  have hwritten : Written hd filler bits (max u 1) := by
    refine ⟨hlegal, hf, hbody ▸ hheader, by omega, ?_, fun k hk hlt => hinside k hk (by omega)⟩
    exact Nat.lt_of_lt_of_le hend (Duo.pos_mono (Nat.le_max_left u 1))
  refine ⟨hd, filler, bits, max u 1, hwritten, rest.drop (header.toNat - hd.size), ?_⟩
  rw [encodeDescription, hbody, UInt8.ofNat_toNat, List.cons_append, descriptionBody, List.append_assoc, ← hstream,
    List.take_append_drop]

/-- **The descriptions that are read** are these, with their weights. -/
theorem readWeights_iff {data : Bytes} (hshort : data.length * 8 < 2 ^ 64) {ws : List Nat} {used : Nat} :
    readWeights data = .ok (ws, used) ↔ ∃ t : Tree, t.Readable ∧ t.bytes <+: data ∧ t.weights = ws ∧ t.bytes.length = used := by
  constructor
  · intro h
    suffices hexists : ∃ t : Tree, t.Readable ∧ t.bytes <+: data by
      obtain ⟨t, ht, rest, rfl⟩ := hexists
      obtain ⟨hweights, hused⟩ := Prod.mk.inj (Except.ok.inj ((ht.readWeights hshort).symm.trans h))
      exact ⟨t, ht, List.prefix_append _ _, hweights, hused⟩
    unfold Zstd.readWeights at h
    obtain ⟨_, hne, h⟩ := Run.bind_eq_ok.mp h
    cases data with
    | nil => exact absurd rfl ((failIf_eq_ok _ _).mp hne)
    | cons b rest =>
      have hstart := At.start (b :: rest)
      rw [hstart.index, Run.ok_bind] at h
      simp only at h
      rw [hstart.tail.slice_rest, Run.ok_bind] at h
      obtain ⟨⟨read, bitsRead⟩, hread, -⟩ := Run.bind_eq_ok.mp h
      have hb := b.toNat_lt
      by_cases hheader : b.toNat ≤ 127
      · rw [if_pos hheader] at hread
        rw [List.length_cons] at hshort
        obtain ⟨hd, filler, bits, u, hwritten, hbegins⟩ := written_of_read hheader (by omega) hread
        exact ⟨.compressed hd filler bits u, hwritten, hbegins⟩
      · rw [if_neg hheader, readDirectWeights_eq] at hread
        by_cases hlen : (b.toNat - 127 + 1) / 2 ≤ rest.length
        · obtain ⟨spare, hspare, hbegins⟩ := exists_nibbles hlen
          have hcount : ((ofNibbles rest).take (b.toNat - 127)).length = b.toNat - 127 := by
            rw [List.length_take, length_ofNibbles]
            omega
          refine ⟨.direct ((ofNibbles rest).take (b.toNat - 127)) spare, ⟨by omega, by omega, hspare, ?_⟩, ?_⟩
          · intro w hw
            exact ofNibbles_lt w (List.mem_of_mem_take hw)
          · unfold Tree.bytes
            simp only
            rw [hcount, Nat.add_sub_cancel' (by omega), UInt8.ofNat_toNat]
            exact List.cons_prefix_cons.mpr ⟨rfl, hbegins⟩
        · rw [if_neg hlen] at hread
          cases hread
  · rintro ⟨t, ht, ⟨rest, rfl⟩, rfl, rfl⟩
    exact ht.readWeights hshort

end Ziftsieve.Zstd
