import Segstore.Catalog.Payload
import Segstore.Kernel.Crc32
import Segstore.System.Identity

/-!
# Segment files read through a catalog

The three ways of a catalog to a segment's payload accept the same files and
find the same payload in them.  The one that fills a buffer of the caller's
clears it on errors only once the header was read.
-/

namespace Segstore

variable {Id Item Seg F : Type}

/-! ## Catalogs -/

/-- Catalogs of the store's directories name their segments in ascending order. -/
theorem catalog_sorted_run [DecidableEq Id] [F64 F] (st : Store Id Item Seg) (fileBacked : Bool)
    (events : List (Event Id Item F)) {c : SegmentCatalog Id} {d : Directory Id Item Seg}
    (hopen : SegmentCatalog.open (Proc.run st (.closed (.empty fileBacked)) [] events).1.dir =
      (.ok c, d)) : c.segmentIds.Pairwise (· < ·) := by
  have hfresh : (Proc.closed (.empty fileBacked) : Proc Id Item Seg F).Agrees fileBacked
      (fun _ _ => True) (fun _ _ _ => True) [] :=
    ⟨rfl, emptyImage, coherent_empty fileBacked, trivial⟩
  obtain ⟨-, im, hcoh, -⟩ := (resilient_frame st).drop ((resilient_frame st).run hfresh events)
  have hreads := (Directory.catalog_open_reads hcoh.shows hcoh.noLegacyWal hcoh.noLegacyCkpt).ok
  have hids := Directory.ofManifest_segmentIds ((hreads.of_run hopen).2 c rfl)
  exact hids ▸ hcoh.numbered.sorted

section

variable (crc32 : List UInt8 → UInt32) (openFile : String → Except PersistenceError OpenFile)

/-! ## What is left in the buffer -/

/-- A buffer is left as it is when the file cannot be opened or has no header
that is taken. -/
theorem readCheckpointPayloadInto_untouched {path : String} (buffer : List UInt8)
    (hno : ¬ ∃ f, openFile path = .ok f ∧ HasHeader f.left) :
    ∃ e, readCheckpointPayloadInto crc32 openFile path buffer = (.err e, buffer) := by
  cases hopen : openFile path with
  | error e => exact ⟨e, by rw [readCheckpointPayloadInto, hopen]; rfl⟩
  | ok f =>
      obtain ⟨e, f', herr⟩ := (readCheckpointPayloadHeader_parses f).exists_err <| by
        rintro _ f' ⟨h, hleft, -⟩
        exact hno ⟨f, hopen, h, f'.left, hleft⟩
      have hbody : ∀ g : CheckpointPayloadHeader → FillM Unit,
          (onReader readCheckpointPayloadHeader >>= g) (f, buffer) = (.err e, (f', buffer)) :=
        fun g => Eff.bind_eq_err.mpr (.inl (Eff.zoom_of_run herr))
      refine ⟨e, ?_⟩
      rw [readCheckpointPayloadInto, hopen]
      show Eff.zoom (fun payload => (f, payload)) (fun _ s => s.2) _ buffer = _
      exact Eff.zoom_of_run (hbody _)

/-- Later errors clear it. -/
theorem readCheckpointPayloadInto_cleared {path : String} {f : OpenFile} (buffer : List UInt8)
    (hopen : openFile path = .ok f) (hheader : HasHeader f.left) :
    Ends (readCheckpointPayloadInto crc32 openFile path) buffer
      (fun r buffer' => ∀ e, r = .err e → buffer' = []) := by
  obtain ⟨h, rest, hleft⟩ := hheader
  have hread : readCheckpointPayloadHeader f =
      (.ok h.parsed, { left := rest, fault := f.fault }) :=
    ((readCheckpointPayloadHeader_parses f).2 _ _).mpr ⟨h, hleft, rfl, rfl⟩
  rw [readCheckpointPayloadInto, hopen]
  refine Ends.zoom ((Ends.of_ok (Eff.zoom_of_run hread)).mpr ?_)
  exact Ends.attempt_bind (R := fun _ _ => True) trivial (fun _ _ _ => by simp)
    (fun _ _ _ _ _ => rfl) fun _ _ => by simp

end

/-! ## Through a catalog -/

section

variable (crc32 : List UInt8 → UInt32) (openFile : String → Except PersistenceError OpenFile)
variable (c : SegmentCatalog Id) (id : Nat)

theorem segmentName_bind {σ α : Type} {c : SegmentCatalog Id} {id : Nat}
    (hnamed : c.ensureSegmentId id = .ok ()) (g : String → Eff PersistenceError σ α) :
    (Eff.ofExcept (c.segmentName id) >>= g) = g (segPath id) := by
  rw [SegmentCatalog.segmentName, hnamed]
  rfl

/-- Whatever the catalog and the files are, reading does not panic. -/
theorem no_panic {σ : Type} (s : σ) (buffer : List UInt8) :
    (c.readSegmentPayload crc32 openFile id s).1 ≠ .crash ∧
      (c.segmentPayloadInfo crc32 openFile id s).1 ≠ .crash ∧
      (c.readSegmentPayloadInto crc32 openFile id buffer).1 ≠ .crash :=
  ⟨(Parses.ofExcept_bind fun _ _ => readCheckpointPayload_parses crc32 openFile _ s).1,
    (Parses.ofExcept_bind fun _ _ => readCheckpointPayloadInfo_parses crc32 openFile _ s).1,
    (Parses.ofExcept_bind fun _ _ => readCheckpointPayloadInto_parses crc32 openFile _ buffer).1⟩

/-- What the entry points make of a segment file with content `b`: they accept it
exactly when it has a payload, and find that payload. -/
structure ReadsPayload (b : List UInt8) : Prop where
  payload : ∀ p, (c.readSegmentPayload crc32 openFile id ()).1 = .ok p ↔ Envelops crc32 b p
  info : (∃ info, (c.segmentPayloadInfo crc32 openFile id ()).1 = .ok info) ↔
    ∃ p, Envelops crc32 b p
  range : ∀ info p, (c.segmentPayloadInfo crc32 openFile id ()).1 = .ok info →
    Envelops crc32 b p → (b.drop info.payloadOffset).take info.payloadLen = p ∧
      ∀ q, info.verifyPayload crc32 q = .ok () ↔ q.length = p.length ∧ crc32 q = crc32 p

variable {crc32 openFile c id}

theorem ReadsPayload.of_named (hnamed : c.ensureSegmentId id = .ok ()) {b : List UInt8}
    (hfile : openFile (segPath id) = .ok { left := b, fault := none }) :
    ReadsPayload crc32 openFile c id b := by
  have hread := readCheckpointPayload_parses crc32 openFile (segPath id) ()
  have hinfo := readCheckpointPayloadInfo_parses crc32 openFile (segPath id) ()
  have hfiles : ∀ p, (∃ f, openFile (segPath id) = .ok f ∧ Envelops crc32 f.left p) ↔
      Envelops crc32 b p := by
    intro p
    rw [hfile]
    constructor
    · rintro ⟨_, ⟨⟩, hp⟩
      exact hp
    · exact fun hp => ⟨_, rfl, hp⟩
  have hinfo_iff : ∀ info, (c.segmentPayloadInfo crc32 openFile id ()).1 = .ok info ↔
      ∃ p, Envelops crc32 b p ∧ info = ⟨CHECKPOINT_HEADER_BYTES, p.length, crc32 p⟩ := by
    intro info
    rw [SegmentCatalog.segmentPayloadInfo, segmentName_bind hnamed, hinfo.ok_iff]
    constructor
    · rintro ⟨-, ⟨f, p, hopen, hp, rfl⟩, -⟩
      exact ⟨p, (hfiles p).mp ⟨f, hopen, hp⟩, rfl⟩
    · rintro ⟨p, hp, rfl⟩
      exact ⟨(), ⟨_, p, hfile, hp, rfl⟩, rfl⟩
  refine ⟨fun p => ?_, ?_, fun info p hok hp => ?_⟩
  · rw [SegmentCatalog.readSegmentPayload, segmentName_bind hnamed, hread.ok_iff, ← hfiles]
    simp
  · simp only [hinfo_iff]
    constructor
    · rintro ⟨-, p, hp, -⟩
      exact ⟨p, hp⟩
    · rintro ⟨p, hp⟩
      exact ⟨_, p, hp, rfl⟩
  · obtain ⟨p', hp', rfl⟩ := (hinfo_iff _).mp hok
    obtain rfl := hp.unique hp'
    obtain ⟨h, rest, rfl, -⟩ := hp
    refine ⟨?_, fun q => ?_⟩
    · rw [CHECKPOINT_HEADER_BYTES, List.drop_left' h.length_bytes, List.take_left' rfl]
    · exact SegmentPayloadInfo.verifyPayload_ok_iff

end

/-- Every catalog that names its segments in ascending order has exactly the named ids
accepted, and for each of them every entry point accepts exactly the segment files and
finds their payload.  No catalog and no file makes an entry point panic, and the
catalogs of the store's own directories are in ascending order. -/
theorem segment_payload_exact [DecidableEq Id] [F64 F] (st : Store Id Item Seg)
    (crc32 : List UInt8 → UInt32) (openFile : String → Except PersistenceError OpenFile) :
    (∀ c : SegmentCatalog Id, c.segmentIds.Pairwise (· < ·) → ∀ id,
      (c.ensureSegmentId id = .ok () ↔ id ∈ c.segmentIds) ∧
      (id ∈ c.segmentIds → ∀ b, openFile (segPath id) = .ok { left := b, fault := none } →
        ReadsPayload crc32 openFile c id b)) ∧
    (∀ (c : SegmentCatalog Id) id buffer,
      (c.readSegmentPayload crc32 openFile id ()).1 ≠ .crash ∧
        (c.segmentPayloadInfo crc32 openFile id ()).1 ≠ .crash ∧
        (c.readSegmentPayloadInto crc32 openFile id buffer).1 ≠ .crash) ∧
    ∀ fileBacked (events : List (Event Id Item F)) c d,
      SegmentCatalog.open (Proc.run st (.closed (.empty fileBacked)) [] events).1.dir =
        (.ok c, d) → c.segmentIds.Pairwise (· < ·) := by
  refine ⟨fun c hsorted id => ?_, fun c id => no_panic crc32 openFile c id (),
    fun fileBacked events _ _ => catalog_sorted_run st fileBacked events⟩
  have hnamed := Directory.ensureSegmentId_ok_iff hsorted id
  exact ⟨hnamed, fun hid _ hfile => .of_named (hnamed.mpr hid) hfile⟩

/-- A file in the first version, with a byte after its payload. -/
def trailingFile : List UInt8 :=
  CHECKPOINT_MAGIC ++ leBytes 4 1 ++ leBytes 8 0 ++ leBytes 8 1 ++
    leBytes 4 (Crc32.hash [7]).toNat ++ [7, 9]

theorem trailingFile_envelops : Envelops Crc32.hash trailingFile [7] :=
  ⟨⟨leBytes 4 1, leBytes 8 0, leBytes 8 1, leBytes 4 (Crc32.hash [7]).toNat, rfl, rfl, rfl, rfl,
    by decide, by decide⟩, [9], rfl, by decide, leValue_leBytes (UInt32.toNat_lt _)⟩

/-- The second of two named segments. -/
theorem segment_payload_exact_one :
    ((⟨1, 6, [3, 5], [], ∅⟩ : SegmentCatalog Nat).readSegmentPayload Crc32.hash
      (fun _ => .ok ⟨trailingFile, none⟩) 5 ()).1 = .ok [7] := by
  have hexact := segment_payload_exact (F := Rat) (defaultStore Nat Nat) Crc32.hash
    (fun _ => .ok ⟨trailingFile, none⟩)
  have hreads := (hexact.1 ⟨1, 6, [3, 5], [], ∅⟩ (by decide) 5).2 (by decide) trailingFile rfl
  exact (hreads.payload [7]).mpr trailingFile_envelops

/-- A directory whose manifest names its segments in another order. -/
def unsortedDir : Directory Nat Nat (List (Nat × Nat)) :=
  { Directory.empty false with
    files := (∅ : Files Nat Nat (List (Nat × Nat))).insert MANIFEST_PATH
      (.checkpoint 1 (.manifest ⟨6, [5, 3], [], some ⟨MANIFEST_EXT_VERSION, []⟩⟩)) }

/-- The catalog of such a directory opens, and does not find a segment that it names:
the search for an id takes the list to be in ascending order. -/
theorem unsorted_catalog_misses :
    ∃ c, (SegmentCatalog.open unsortedDir).1 = .ok c ∧ 5 ∈ c.segmentIds ∧
      ¬ ReadsPayload Crc32.hash (fun _ => .ok ⟨trailingFile, none⟩) c 5 trailingFile := by
  refine ⟨⟨1, 6, [5, 3], [], ∅⟩, rfl, by decide, fun hreads => ?_⟩
  have hok := (hreads.payload [7]).mpr trailingFile_envelops
  exact absurd hok (by decide)

section

variable (crc32 : List UInt8 → UInt32) (openFile : String → Except PersistenceError OpenFile)
variable (c : SegmentCatalog Id) (id : Nat)

/-- The promise about the buffer: it holds the payload of the file, or nothing
when the call fails. -/
def FillsOrClears (path : String) (r : Outcome PersistenceError Unit)
    (buffer : List UInt8) : Prop :=
  (r = .ok () → ∃ f, openFile path = .ok f ∧ Envelops crc32 f.left buffer) ∧
    ∀ e, r = .err e → buffer = []

/-- The buffer ends as promised exactly when it was empty before, or the file is
found and its header taken. -/
theorem read_into_clears_iff (buffer : List UInt8) :
    Ends (c.readSegmentPayloadInto crc32 openFile id) buffer
      (FillsOrClears crc32 openFile (segPath id)) ↔
    buffer = [] ∨ c.ensureSegmentId id = .ok () ∧
      ∃ f, openFile (segPath id) = .ok f ∧ HasHeader f.left := by
  have hrun : c.ensureSegmentId id = .ok () →
      c.readSegmentPayloadInto crc32 openFile id buffer =
        readCheckpointPayloadInto crc32 openFile (segPath id) buffer := by
    intro hnamed
    rw [SegmentCatalog.readSegmentPayloadInto, segmentName_bind hnamed]
  constructor
  · intro hends
    by_contra hno
    obtain ⟨hbuffer, hno⟩ := not_or.mp hno
    -- an early error has left the buffer as it was
    have huntouched : ∃ e, c.readSegmentPayloadInto crc32 openFile id buffer =
        (.err e, buffer) := by
      cases hnamed : c.ensureSegmentId id with
      | error e =>
          refine ⟨e, ?_⟩
          rw [SegmentCatalog.readSegmentPayloadInto, SegmentCatalog.segmentName, hnamed]
          rfl
      | ok u =>
          rw [hrun hnamed]
          exact readCheckpointPayloadInto_untouched crc32 openFile buffer
            fun hf => hno ⟨hnamed, hf⟩
    obtain ⟨e, he⟩ := huntouched
    exact hbuffer ((hends.of_run he).2 e rfl)
  · intro hwhen
    have hparses := readCheckpointPayloadInto_parses crc32 openFile (segPath id) buffer
    cases hnamed : c.ensureSegmentId id with
    | error e =>
        rw [SegmentCatalog.readSegmentPayloadInto, SegmentCatalog.segmentName, hnamed]
        refine ⟨by rintro ⟨⟩, fun _ _ => ?_⟩
        exact hwhen.resolve_right fun h => by rw [hnamed] at h; cases h.1
    | ok u =>
        rw [Ends, hrun hnamed]
        refine ⟨fun hok => (hparses.2 () _).mp (Prod.ext hok rfl), fun e herr => ?_⟩
        by_cases hheader : ∃ f, openFile (segPath id) = .ok f ∧ HasHeader f.left
        · obtain ⟨f, hopen, hf⟩ := hheader
          exact readCheckpointPayloadInto_cleared crc32 openFile buffer hopen hf e herr
        · obtain ⟨e', he'⟩ :=
            readCheckpointPayloadInto_untouched crc32 openFile buffer hheader
          rw [he']
          exact hwhen.resolve_right fun h => hheader h.2

end

/-- An id that the catalog does not name leaves the bytes of an earlier read. -/
theorem read_into_keeps_stale :
    ¬ Ends ((⟨0, 4, [3], [], ∅⟩ : SegmentCatalog Nat).readSegmentPayloadInto Crc32.hash
      (fun path => .error (.notFound path)) 5) [1, 2, 3]
      (FillsOrClears Crc32.hash (fun path => .error (.notFound path)) (segPath 5)) := by
  intro h
  have hstale := h.2 (.notFound "segment id 5 is not in the checkpoint manifest") (by decide)
  exact absurd hstale (by decide)

end Segstore
