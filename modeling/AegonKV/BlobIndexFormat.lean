import AegonKV.MemTableGet

/-!
# One index format for three parsers

`BlobIndex::EncodeTo` writes the new part and, where there is one, the old part behind it.
`DecodeFrom`, `SaverCheckIsGCWriteBack` in the base DB's memtable and `CheckBlobIndex` in its
compaction iterator read it, and only the bytes that are left tell them about the old part.
-/

namespace AegonKV
open LittleEndian

/-- An index whose old handle is set only together with an old file number. -/
structure StoredIndex extends BlobIndex where
  old_absent : oldFileNumber = 0 → oldBlobHandle = ⟨0, 0, 0⟩

namespace BlobIndexType

def toIndex (p : BlobIndexType) : BlobIndex where
  fileNumber := p.fileNumber
  blobHandle := ⟨p.offset, p.size, p.index⟩

theorem tag_put (p : BlobIndexType) : 1 :: p.put = p.toIndex.encodeTo := by
  have hold : ¬p.toIndex.oldFileNumber > 0 := by
    change ¬(0 : UInt64) > 0
    decide
  rw [BlobIndex.encodeTo, if_neg hold, List.append_nil]
  simp only [put, toIndex, BlobHandle.encodeTo, List.append_assoc, BlobIndex.kBlobRecord]

theorem decodeFrom_tag_put (p : BlobIndexType) :
    BlobIndex.decodeFrom (1 :: p.put) = .ok (p.toIndex, []) := by
  rw [tag_put]
  exact BlobIndex.decodeFrom_encodeTo_of_plain _ _

end BlobIndexType

namespace BlobIndex

def newPart (b : BlobIndex) : BlobIndexType :=
  ⟨b.fileNumber, b.blobHandle.offset, b.blobHandle.size, b.blobHandle.index⟩

/-- The old part, which stands behind the new one where its file number is not zero. -/
def oldPart (b : BlobIndex) : BlobIndexType :=
  ⟨b.oldFileNumber, b.oldBlobHandle.offset, b.oldBlobHandle.size, b.oldBlobHandle.index⟩

def newIndex (b : BlobIndex) : BlobIndex where
  fileNumber := b.fileNumber
  blobHandle := b.blobHandle

theorem toIndex_newPart (b : BlobIndex) : b.newPart.toIndex = b.newIndex := rfl

theorem encodeTo_of_old {b : BlobIndex} (h : b.oldFileNumber > 0) :
    b.encodeTo = 1 :: b.newPart.put ++ b.oldPart.put := by
  rw [encodeTo, if_pos h]
  simp only [newPart, oldPart, BlobIndexType.put, BlobHandle.encodeTo, kBlobRecord,
    List.append_assoc, List.cons_append]

theorem encodeTo_of_plain {b : BlobIndex} (h : ¬b.oldFileNumber > 0) :
    b.encodeTo = 1 :: b.newPart.put := by
  rw [encodeTo, if_neg h, List.append_nil]
  simp only [newPart, BlobIndexType.put, BlobHandle.encodeTo, kBlobRecord, List.append_assoc]

end BlobIndex

theorem StoredIndex.newIndex_of_plain {b : StoredIndex} (h : ¬b.oldFileNumber > 0) :
    b.newIndex = b.toBlobIndex := by
  have hzero : b.oldFileNumber = 0 := by
    apply UInt64.toNat_inj.mp
    have hpos : ¬0 < b.oldFileNumber.toNat := h
    change b.oldFileNumber.toNat = 0
    omega
  rw [BlobIndex.newIndex, ← b.old_absent hzero, ← hzero]

/-- `DecodeFrom` into a new index gives back what was encoded. -/
theorem StoredIndex.decodeFrom_encodeTo (b : StoredIndex) :
    BlobIndex.decodeFrom b.encodeTo = .ok (b.toBlobIndex, []) := by
  by_cases hold : b.oldFileNumber > 0
  · exact BlobIndex.decodeFrom_encodeTo_of_old hold
  · rw [BlobIndex.encodeTo_of_plain hold, BlobIndexType.decodeFrom_tag_put,
      BlobIndex.toIndex_newPart, newIndex_of_plain hold]

/-- `SaverCheckIsGCWriteBack` sees the old part. -/
theorem saverCheckIsGCWriteBack_encodeTo (b : BlobIndex) :
    MemTable.saverCheckIsGCWriteBack b.encodeTo = some (decide (b.oldFileNumber > 0)) := by
  by_cases hold : b.oldFileNumber > 0
  · have hne : b.oldPart.put.isEmpty = false := by
      rw [List.isEmpty_eq_false_iff]
      exact b.oldPart.put_ne_nil
    rw [BlobIndex.encodeTo_of_old hold, MemTable.saverCheckIsGCWriteBack, BlobIndexType.getTagged_put,
      decide_eq_true hold]
    simp only [Option.bind_eq_bind, Option.bind_some, hne, Bool.not_false, Option.pure_def]
  · have hget := BlobIndexType.getTagged_put b.newPart []
    rw [List.append_nil] at hget
    rw [BlobIndex.encodeTo_of_plain hold, MemTable.saverCheckIsGCWriteBack, hget, decide_eq_false hold]
    rfl

/-- `CheckBlobIndex` on two encoded indexes: nothing without an old part, and else the plain part
of one of them. -/
theorem checkBlobIndex_encodeTo (prev cur : BlobIndex) :
    checkBlobIndex prev.encodeTo cur.encodeTo =
      some (if prev.oldFileNumber > 0 then
        some (1 :: (if prev.oldPart.sameRecord cur.newPart then prev.newPart else cur.newPart).put)
      else none) := by
  by_cases hold : prev.oldFileNumber > 0
  · rw [if_pos hold, BlobIndex.encodeTo_of_old hold]
    by_cases hcur : cur.oldFileNumber > 0
    · rw [BlobIndex.encodeTo_of_old hcur]
      exact checkBlobIndex_writeBack _ _ _ _
    · have hcheck := checkBlobIndex_writeBack prev.newPart prev.oldPart cur.newPart []
      rw [List.append_nil] at hcheck
      rw [BlobIndex.encodeTo_of_plain hcur]
      exact hcheck
  · rw [if_neg hold, BlobIndex.encodeTo_of_plain hold]
    exact checkBlobIndex_plain _ _

/-- The three parsers on every stored index: what was encoded comes back whole, the memtable sees
an old part where there is one, and the compaction iterator merges two versions exactly where the
newer one has an old part. -/
theorem stored_index_format :
    (∀ b : StoredIndex, BlobIndex.decodeFrom b.encodeTo = .ok (b.toBlobIndex, []) ∧
      MemTable.saverCheckIsGCWriteBack b.encodeTo = some (decide (b.oldFileNumber > 0))) ∧
    ∀ prev cur : StoredIndex, ∃ result,
      checkBlobIndex prev.encodeTo cur.encodeTo = some result ∧
        result.map BlobIndex.decodeFrom =
          if prev.oldFileNumber > 0 then
            some (.ok (if prev.oldFileNumber = cur.fileNumber ∧
                prev.oldBlobHandle.offset = cur.blobHandle.offset
              then prev.newIndex else cur.newIndex, []))
          else none := by
  constructor
  · intro b
    exact ⟨b.decodeFrom_encodeTo, saverCheckIsGCWriteBack_encodeTo _⟩
  · intro prev cur
    refine ⟨_, checkBlobIndex_encodeTo _ _, ?_⟩
    by_cases hold : prev.oldFileNumber > 0
    · rw [if_pos hold, if_pos hold, Option.map_some, BlobIndexType.decodeFrom_tag_put]
      have hsame : prev.oldPart.sameRecord cur.newPart = true ↔
          prev.oldFileNumber = cur.fileNumber ∧
            prev.oldBlobHandle.offset = cur.blobHandle.offset := by
        simp only [BlobIndexType.sameRecord, BlobIndex.oldPart, BlobIndex.newPart, Bool.and_eq_true,
          beq_iff_eq]
      by_cases hrecord : prev.oldPart.sameRecord cur.newPart = true
      · rw [if_pos hrecord, if_pos (hsame.mp hrecord), BlobIndex.toIndex_newPart]
      · rw [if_neg hrecord, if_neg (fun h => hrecord (hsame.mpr h)), BlobIndex.toIndex_newPart]
    · rw [if_neg hold, if_neg hold, Option.map_none]

end AegonKV
