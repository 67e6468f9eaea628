import Mathlib.Data.List.Infix
import Ziftsieve.IndexSound

/-!
# Search over an index

A caller verifies the candidates of a query. Whatever the filters are, and however
they were sized while the index grew, what is left is what a search through every
block would have found. A streamed index holds the blocks of a log, which takes a
chunk whole or not at all.
-/

namespace Ziftsieve

/-! ## Logs -/

section
variable {ε α : Type}

/-- A log of bounded length: what comes is taken whole or not at all, and errors are passed over. -/
def logged (cap : Nat) (log : List α) : List (Except ε (List α)) → List α
  | [] => log
  | .ok xs :: rs => logged cap (if log.length + xs.length ≤ cap then log ++ xs else log) rs
  | .error _ :: rs => logged cap log rs

theorem logged_append (cap : Nat) (log : List α) (rs rs' : List (Except ε (List α))) :
    logged cap log (rs ++ rs') = logged cap (logged cap log rs) rs' := by
  induction rs generalizing log with
  | nil => rfl
  | cons r rs ih =>
    cases r with
    | ok xs => exact ih _
    | error e => exact ih log

end

/-! ## Search -/

variable {ext : External}

namespace CompressedIndex

end CompressedIndex

/-! ## Calls of the streaming builder -/

/-- What a caller may do with a streaming builder before `finalize`, in any order. -/
inductive BuilderCall where
  | processChunk (chunk : Bytes)
  | expectedItems (n : Nat)
  | falsePositiveRate (rate : Float)
  | bloomBits (bits : Nat)
  | bloomHashes (hashes : Nat)

namespace BuilderCall

def run (ext : External) (b : StreamingIndexBuilder) : BuilderCall → StreamingIndexBuilder
  | processChunk chunk => b.processChunks ext [chunk]
  | expectedItems n => { b with expectedItems := some n }
  | falsePositiveRate rate => { b with falsePositiveRate := some rate }
  | bloomBits bits => { b with numBits := some bits }
  | bloomHashes hashes => { b with numHashes := some hashes }

def chunk? : BuilderCall → Option Bytes
  | processChunk chunk => some chunk
  | _ => none

end BuilderCall

/-- A builder that holds a log, each block with some filter that was built for it. -/
structure StreamingIndexBuilder.Holds (ext : External) (format : CompressionFormat) (log : List CompressedBlock)
    (b : StreamingIndexBuilder) : Prop where
  format_eq : b.format = format
  blocks_eq : b.blocks.map (·.block) = log
  built : ∀ bb ∈ b.blocks, bb.Built ext

namespace StreamingIndexBuilder.Holds

variable {format : CompressionFormat} {log : List CompressedBlock} {b : StreamingIndexBuilder}

theorem processChunk (h : b.Holds ext format log) (chunk : Bytes) :
    (b.processChunks ext [chunk]).Holds ext format
      (logged maxStreamingBlocks log [extractFromBytes ext format chunk]) := by
  obtain ⟨rfl, rfl, hbuilt⟩ := h
  unfold processChunks StreamingIndexBuilder.processChunk
  rw [List.foldl_cons, List.foldl_nil]
  cases extractFromBytes ext b.format chunk with
  | error e => exact ⟨rfl, rfl, hbuilt⟩
  | ok newBlocks =>
    rw [Run.ok_bind, logged, logged, List.length_map]
    by_cases hfew : b.blocks.length + newBlocks.length ≤ maxStreamingBlocks
    · rw [failIf_false _ (Nat.not_lt.mpr hfew), if_pos hfew]
      refine ⟨rfl, ?_, fun bb hbb => ?_⟩
      · change (b.blocks ++ newBlocks.map (b.buildBlockWithBloom ext)).map (·.block) = _
        rw [List.map_append, List.map_map]
        congr 1
        exact List.map_id newBlocks
      · rcases List.mem_append.mp hbb with hbb | hbb
        · exact hbuilt bb hbb
        · obtain ⟨block, -, rfl⟩ := List.mem_map.mp hbb
          exact b.built block
    · rw [failIf_true _ (Nat.lt_of_not_le hfew), if_neg hfew]
      exact ⟨rfl, rfl, hbuilt⟩

theorem run (h : b.Holds ext format log) (call : BuilderCall) : (call.run ext b).Holds ext format
    (logged maxStreamingBlocks log (call.chunk?.toList.map (extractFromBytes ext format))) := by
  cases call with
  | processChunk chunk => exact h.processChunk chunk
  | expectedItems n => exact ⟨h.format_eq, h.blocks_eq, h.built⟩
  | falsePositiveRate rate => exact ⟨h.format_eq, h.blocks_eq, h.built⟩
  | bloomBits bits => exact ⟨h.format_eq, h.blocks_eq, h.built⟩
  | bloomHashes hashes => exact ⟨h.format_eq, h.blocks_eq, h.built⟩

theorem runs (calls : List BuilderCall) (h : b.Holds ext format log) :
    (calls.foldl (BuilderCall.run ext) b).Holds ext format
      (logged maxStreamingBlocks log ((calls.filterMap BuilderCall.chunk?).map (extractFromBytes ext format))) := by
  induction calls generalizing b log with
  | nil => exact h
  | cons call calls ih =>
    have hrest := ih (h.run call)
    rw [← logged_append, ← List.map_append] at hrest
    rw [List.foldl_cons, List.filterMap_cons]
    cases hchunk : call.chunk? with
    | none => rwa [hchunk] at hrest
    | some chunk => rwa [hchunk] at hrest

end StreamingIndexBuilder.Holds

end Ziftsieve
