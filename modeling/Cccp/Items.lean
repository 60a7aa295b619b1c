import Cccp.Basic
import Cccp.Lib.Protobuf
import Mathlib.Algebra.Order.BigOperators.Group.List
import Mathlib.Data.List.Flatten

/-!
# Control messages

The messages of `items.proto` and their protobuf codecs.  A string is its UTF-8
bytes; bytes that are no UTF-8, which `prost` refuses in a string, are decoded as
they are.  A map is written entry by entry; the order in which a `HashMap` yields
its entries is unspecified, and here it is the reverse of the list that
represents the map, so that inserting the entries one by one as they are read
gives that list back.

`messageCodec_lawful` and `startIndexCodec_lawful` say that every message
shorter than `2 ^ 64` bytes decodes to itself.
-/

namespace Cccp

open Protobuf

/-! ## Message types -/

inductive Cipher where
  | none
  | chacha8
  | aes128
  | aes192
  | chacha20
  | aes256
  deriving DecidableEq, Repr

/-- Encryption details; `cipher` is the number of a `Cipher`, unchecked. -/
structure Crypto where
  cipher : Int32
  key : Bytes
  iv : Bytes
  deriving DecidableEq

structure FileDetail where
  path : Bytes
  size : UInt64
  signature : Option Bytes
  crypto : Crypto
  deriving DecidableEq

structure Manifest where
  directories : List Bytes
  files : HashMap UInt32 FileDetail

/-- `items::message::Message`; `unset` is the message whose `oneof` is absent. -/
inductive Message where
  | unset
  | manifest (manifest : Manifest)
  | confirmations (indexes : HashMap UInt32 (List UInt64))
  | startIndex (index : UInt64)
  | start (id : UInt32)
  | end_ (id : UInt32)
  | failure (id reason : UInt32) (description : Option Bytes)
  | done (reason : UInt32)
  | completed (ids : List UInt32)

/-- `Manifest::is_empty`. -/
def Manifest.isEmpty (m : Manifest) : Bool :=
  m.files.entries.isEmpty && m.directories.isEmpty

/-! ## Codecs of the inner messages -/

/-- `int32` fields are sign-extended to 64 bits. -/
def int32Varint (v : Int32) : Nat := v.toInt64.toUInt64.toNat

def int32OfVarint (n : Nat) : Int32 := (UInt64.ofNat n).toInt64.toInt32

theorem int32OfVarint_int32Varint (v : Int32) : int32OfVarint (int32Varint v) = v := by
  simp [int32OfVarint, int32Varint]

theorem int32Varint_lt (v : Int32) : int32Varint v < 2 ^ 64 :=
  UInt64.toNat_lt _

theorem uint32_lt (v : UInt32) : v.toNat < 2 ^ 64 :=
  Nat.lt_trans v.toNat_lt (by decide)

def cryptoCodec : Codec Crypto where
  empty := ⟨0, [], []⟩
  encode c :=
    [varintField 1 (int32Varint c.cipher), bytesField 2 c.key, bytesField 3 c.iv].flatten
  mergeField tag wire c :=
    match tag with
    | 1 => fun bytes =>
        (mergeVarint wire bytes).map fun r => ({ c with cipher := int32OfVarint r.1 }, r.2)
    | 2 => fun bytes => (mergeBytes wire bytes).map fun r => ({ c with key := r.1 }, r.2)
    | 3 => fun bytes => (mergeBytes wire bytes).map fun r => ({ c with iv := r.1 }, r.2)
    | _ => mergeUnknown c wire tag
  shrinks tag wire c := by
    split
    · exact (mergeVarint_shrinks wire).map fun v => { c with cipher := int32OfVarint v }
    · exact (mergeBytes_shrinks wire).map fun v => { c with key := v }
    · exact (mergeBytes_shrinks wire).map fun v => { c with iv := v }
    · exact mergeUnknown_shrinks c wire tag

theorem cryptoCodec_lawful : cryptoCodec.Lawful := by
  intro c fits
  have key := length_le_bytesField 2 c.key
  have iv := length_le_bytesField 3 c.iv
  simp only [cryptoCodec, List.flatten_cons, List.flatten_nil, List.length_append,
    List.length_nil] at fits
  calc cryptoCodec.decode (cryptoCodec.encode c)
      = cryptoCodec.decodeFrom ⟨int32OfVarint (int32Varint c.cipher), [], []⟩
          [bytesField 2 c.key, bytesField 3 c.iv].flatten :=
        cryptoCodec.decodeFrom_varintField (f := fun v => ⟨int32OfVarint v, [], []⟩)
          (fun _ => rfl) (by decide) (by decide) (int32Varint_lt _)
    _ = cryptoCodec.decodeFrom ⟨c.cipher, c.key, []⟩ [bytesField 3 c.iv].flatten := by
        rw [int32OfVarint_int32Varint]
        exact cryptoCodec.decodeFrom_bytesField (f := fun v => ⟨c.cipher, v, []⟩)
          (fun _ => rfl) (by decide) (by decide) (by omega)
    _ = some c :=
        cryptoCodec.decodeFrom_bytesField (f := fun v => ⟨c.cipher, c.key, v⟩)
          (fun _ => rfl) (by decide) (by decide) (by omega)

def fileDetailCodec : Codec FileDetail where
  empty := ⟨[], 0, none, cryptoCodec.empty⟩
  encode d :=
    [bytesField 1 d.path, varintField 2 d.size.toNat,
      (d.signature.map (bytesField 3)).getD [],
      messageField cryptoCodec 4 d.crypto].flatten
  mergeField tag wire d :=
    match tag with
    | 1 => fun bytes => (mergeBytes wire bytes).map fun r => ({ d with path := r.1 }, r.2)
    | 2 => fun bytes =>
        (mergeVarint wire bytes).map fun r => ({ d with size := UInt64.ofNat r.1 }, r.2)
    | 3 => fun bytes =>
        (mergeBytes wire bytes).map fun r => ({ d with signature := some r.1 }, r.2)
    | 4 => fun bytes =>
        (mergeMessage cryptoCodec wire d.crypto bytes).map
          fun r => ({ d with crypto := r.1 }, r.2)
    | _ => mergeUnknown d wire tag
  shrinks tag wire d := by
    split
    · exact (mergeBytes_shrinks wire).map fun v => { d with path := v }
    · exact (mergeVarint_shrinks wire).map fun v => { d with size := UInt64.ofNat v }
    · exact (mergeBytes_shrinks wire).map fun v => { d with signature := some v }
    · exact (mergeMessage_shrinks cryptoCodec wire d.crypto).map
        fun v => { d with crypto := v }
    · exact mergeUnknown_shrinks d wire tag

theorem fileDetailCodec_lawful : fileDetailCodec.Lawful := by
  rintro ⟨path, size, signature, crypto⟩ fits
  have path_lt := length_le_bytesField 1 path
  have crypto_lt := length_le_bytesField 4 (cryptoCodec.encode crypto)
  simp only [fileDetailCodec, List.flatten_cons, List.flatten_nil, List.length_append,
    List.length_nil, messageField] at fits
  have readSignature :
      fileDetailCodec.decodeFrom ⟨path, size, none, cryptoCodec.empty⟩
          [(signature.map (bytesField 3)).getD [], messageField cryptoCodec 4 crypto].flatten =
        fileDetailCodec.decodeFrom ⟨path, size, signature, cryptoCodec.empty⟩
          [messageField cryptoCodec 4 crypto].flatten := by
    cases signature with
    | none => rfl
    | some signature =>
        have signature_lt := length_le_bytesField 3 signature
        simp only [Option.map_some, Option.getD_some] at fits
        exact fileDetailCodec.decodeFrom_bytesField
          (f := fun v => ⟨path, size, some v, cryptoCodec.empty⟩)
          (fun _ => rfl) (by decide) (by decide) (by omega)
  calc fileDetailCodec.decode (fileDetailCodec.encode ⟨path, size, signature, crypto⟩)
      = fileDetailCodec.decodeFrom ⟨path, 0, none, cryptoCodec.empty⟩
          [varintField 2 size.toNat, (signature.map (bytesField 3)).getD [],
            messageField cryptoCodec 4 crypto].flatten :=
        fileDetailCodec.decodeFrom_bytesField
          (f := fun v => ⟨v, 0, none, cryptoCodec.empty⟩)
          (fun _ => rfl) (by decide) (by decide)
          (show path.length < 2 ^ 64 by omega)
    _ = fileDetailCodec.decodeFrom ⟨path, UInt64.ofNat size.toNat, none, cryptoCodec.empty⟩
          [(signature.map (bytesField 3)).getD [],
            messageField cryptoCodec 4 crypto].flatten :=
        fileDetailCodec.decodeFrom_varintField
          (f := fun v => ⟨path, UInt64.ofNat v, none, cryptoCodec.empty⟩)
          (fun _ => rfl) (by decide) (by decide) size.toNat_lt
    _ = fileDetailCodec.decodeFrom ⟨path, size, signature, cryptoCodec.empty⟩
          [messageField cryptoCodec 4 crypto].flatten := by
        rw [UInt64.ofNat_toNat, readSignature]
    _ = some ⟨path, size, signature, crypto⟩ :=
        fileDetailCodec.decodeFrom_messageField cryptoCodec_lawful
          (f := fun v => ⟨path, size, signature, v⟩)
          (fun _ => rfl) (by decide) (by decide) (by omega)

/-! ## Maps -/

/-- Inserting the entries of a map, last one first, rebuilds the map. -/
theorem foldl_insert_reverse {V : Type} (m : HashMap UInt32 V) :
    (m.entries.reverse.foldl (fun acc e => acc.insert e.1 e.2) (∅ : HashMap UInt32 V)) = m := by
  obtain ⟨entries, nodup⟩ := m
  induction entries with
  | nil => rfl
  | cons e rest ih =>
      have restNodup : rest.NodupKeys := (List.nodupKeys_cons.mp nodup).2
      rw [List.reverse_cons, List.foldl_append, ih restNodup]
      exact (AList.mk_cons_eq_insert e rest nodup).symm

/-- The entries of a map in the order in which they are written. -/
def mapEntries {V : Type} (m : HashMap UInt32 V) : List (UInt32 × V) :=
  m.entries.reverse.map fun e => (e.1, e.2)

theorem foldl_mapEntries {V : Type} (m : HashMap UInt32 V) :
    (mapEntries m).foldl (fun acc e => acc.insert e.1 e.2) (∅ : HashMap UInt32 V) = m := by
  rw [mapEntries, List.foldl_map]
  exact foldl_insert_reverse m

def manifestCodec : Codec Manifest where
  empty := ⟨[], ∅⟩
  encode m :=
    (m.directories.map (bytesField 1) ++
      (mapEntries m.files).map (messageField (entryCodec fileDetailCodec) 2)).flatten
  mergeField tag wire m :=
    match tag with
    | 1 => fun bytes =>
        (mergeBytes wire bytes).map
          fun r => ({ m with directories := m.directories ++ [r.1] }, r.2)
    | 2 => fun bytes =>
        (mergeMessage (entryCodec fileDetailCodec) wire
            (entryCodec fileDetailCodec).empty bytes).map
          fun r => ({ m with files := m.files.insert r.1.1 r.1.2 }, r.2)
    | _ => mergeUnknown m wire tag
  shrinks tag wire m := by
    split
    · exact (mergeBytes_shrinks wire).map
        fun v => { m with directories := m.directories ++ [v] }
    · exact (mergeMessage_shrinks (entryCodec fileDetailCodec) wire _).map
        fun v => { m with files := m.files.insert v.1 v.2 }
    · exact mergeUnknown_shrinks m wire tag

theorem foldl_directories (directories : List Bytes) (m : Manifest) :
    directories.foldl (fun m d => { m with directories := m.directories ++ [d] }) m =
      { m with directories := m.directories ++ directories } := by
  induction directories generalizing m with
  | nil => simp
  | cons d rest ih => simp [ih]

theorem foldl_files (entries : List (UInt32 × FileDetail)) (m : Manifest) :
    entries.foldl (fun (m : Manifest) e => { m with files := m.files.insert e.1 e.2 }) m =
      { m with files := entries.foldl (fun acc e => acc.insert e.1 e.2) m.files } := by
  induction entries generalizing m with
  | nil => rfl
  | cons e rest ih => simp [ih]

theorem manifestCodec_lawful : manifestCodec.Lawful := by
  rintro ⟨directories, files⟩ fits
  have field_lt : ∀ field, field ∈ directories.map (bytesField 1) ++
      (mapEntries files).map (messageField (entryCodec fileDetailCodec) 2) →
      field.length < 2 ^ 64 := by
    intro field mem
    exact Nat.lt_of_le_of_lt (length_le_flatten mem) fits
  have directory_lt : ∀ d ∈ directories, d.length < 2 ^ 64 := by
    intro d mem
    exact Nat.lt_trans (length_le_bytesField 1 d)
      (field_lt _ (List.mem_append_left _ (List.mem_map_of_mem mem)))
  have entry_lt : ∀ e ∈ mapEntries files,
      ((entryCodec fileDetailCodec).encode e).length < 2 ^ 64 := by
    intro e mem
    exact Nat.lt_trans (length_le_bytesField 2 _)
      (field_lt _ (List.mem_append_right _ (List.mem_map_of_mem mem)))
  calc manifestCodec.decode (manifestCodec.encode ⟨directories, files⟩)
      = manifestCodec.decodeFrom
          (directories.foldl (fun m d => { m with directories := m.directories ++ [d] })
            manifestCodec.empty)
          ((mapEntries files).map (messageField (entryCodec fileDetailCodec) 2)).flatten :=
        manifestCodec.decodeFrom_repeatedBytes directories _ (fun _ _ => rfl)
          (by decide) (by decide) directory_lt
    _ = manifestCodec.decodeFrom ⟨directories, ∅⟩
          ((mapEntries files).map (messageField (entryCodec fileDetailCodec) 2) ++
            []).flatten := by
        rw [foldl_directories, List.append_nil]
        rfl
    _ = some ((mapEntries files).foldl
          (fun (m : Manifest) e => { m with files := m.files.insert e.1 e.2 })
          ⟨directories, ∅⟩) :=
        Codec.decodeFrom_entries fileDetailCodec_lawful manifestCodec _ _
          (fun _ _ => rfl) (by decide) (by decide) entry_lt
    _ = some ⟨directories, files⟩ := by
        rw [foldl_files, foldl_mapEntries]

/-! ## The other messages -/

/-- A message whose only field is a required `u32`: `Start`, `End` and `Done`. -/
def uint32Codec : Codec UInt32 where
  empty := 0
  encode v := [varintField 1 v.toNat].flatten
  mergeField tag wire v :=
    match tag with
    | 1 => fun bytes => (mergeVarint wire bytes).map fun r => (UInt32.ofNat r.1, r.2)
    | _ => mergeUnknown v wire tag
  shrinks tag wire v := by
    split
    · exact (mergeVarint_shrinks wire).map UInt32.ofNat
    · exact mergeUnknown_shrinks v wire tag

theorem uint32Codec_lawful : uint32Codec.Lawful := by
  intro v _
  calc uint32Codec.decode (uint32Codec.encode v)
      = some (UInt32.ofNat v.toNat) :=
        uint32Codec.decodeFrom_varintField (f := UInt32.ofNat) (fun _ => rfl)
          (by decide) (by decide) (uint32_lt v)
    _ = some v := by rw [UInt32.ofNat_toNat]

def startCodec : Codec UInt32 := uint32Codec
def endCodec : Codec UInt32 := uint32Codec
def doneCodec : Codec UInt32 := uint32Codec

def startIndexCodec : Codec UInt64 where
  empty := 0
  encode v := [varintField 1 v.toNat].flatten
  mergeField tag wire v :=
    match tag with
    | 1 => fun bytes => (mergeVarint wire bytes).map fun r => (UInt64.ofNat r.1, r.2)
    | _ => mergeUnknown v wire tag
  shrinks tag wire v := by
    split
    · exact (mergeVarint_shrinks wire).map UInt64.ofNat
    · exact mergeUnknown_shrinks v wire tag

theorem startIndexCodec_lawful : startIndexCodec.Lawful := by
  intro v _
  calc startIndexCodec.decode (startIndexCodec.encode v)
      = some (UInt64.ofNat v.toNat) :=
        startIndexCodec.decodeFrom_varintField (f := UInt64.ofNat) (fun _ => rfl)
          (by decide) (by decide) v.toNat_lt
    _ = some v := by rw [UInt64.ofNat_toNat]

/-- The fields of a `Failure`. -/
structure FailureFields where
  id : UInt32
  reason : UInt32
  description : Option Bytes

def failureCodec : Codec FailureFields where
  empty := ⟨0, 0, none⟩
  encode f :=
    [varintField 1 f.id.toNat, varintField 2 f.reason.toNat,
      (f.description.map (bytesField 3)).getD []].flatten
  mergeField tag wire f :=
    match tag with
    | 1 => fun bytes =>
        (mergeVarint wire bytes).map fun r => ({ f with id := UInt32.ofNat r.1 }, r.2)
    | 2 => fun bytes =>
        (mergeVarint wire bytes).map fun r => ({ f with reason := UInt32.ofNat r.1 }, r.2)
    | 3 => fun bytes =>
        (mergeBytes wire bytes).map fun r => ({ f with description := some r.1 }, r.2)
    | _ => mergeUnknown f wire tag
  shrinks tag wire f := by
    split
    · exact (mergeVarint_shrinks wire).map fun v => { f with id := UInt32.ofNat v }
    · exact (mergeVarint_shrinks wire).map fun v => { f with reason := UInt32.ofNat v }
    · exact (mergeBytes_shrinks wire).map fun v => { f with description := some v }
    · exact mergeUnknown_shrinks f wire tag

theorem failureCodec_lawful : failureCodec.Lawful := by
  rintro ⟨id, reason, description⟩ fits
  simp only [failureCodec, List.flatten_cons, List.flatten_nil, List.length_append,
    List.length_nil] at fits
  have readDescription : failureCodec.decodeFrom ⟨id, reason, none⟩
      [(description.map (bytesField 3)).getD []].flatten =
        some ⟨id, reason, description⟩ := by
    cases description with
    | none => rfl
    | some description =>
        have description_lt := length_le_bytesField 3 description
        simp only [Option.map_some, Option.getD_some] at fits
        exact failureCodec.decodeFrom_bytesField (f := fun v => ⟨id, reason, some v⟩)
          (fun _ => rfl) (by decide) (by decide) (by omega)
  calc failureCodec.decode (failureCodec.encode ⟨id, reason, description⟩)
      = failureCodec.decodeFrom ⟨UInt32.ofNat id.toNat, 0, none⟩
          [varintField 2 reason.toNat, (description.map (bytesField 3)).getD []].flatten :=
        failureCodec.decodeFrom_varintField (f := fun v => ⟨UInt32.ofNat v, 0, none⟩)
          (fun _ => rfl) (by decide) (by decide) (uint32_lt id)
    _ = failureCodec.decodeFrom ⟨id, UInt32.ofNat reason.toNat, none⟩
          [(description.map (bytesField 3)).getD []].flatten := by
        rw [UInt32.ofNat_toNat]
        exact failureCodec.decodeFrom_varintField (f := fun v => ⟨id, UInt32.ofNat v, none⟩)
          (fun _ => rfl) (by decide) (by decide) (uint32_lt reason)
    _ = some ⟨id, reason, description⟩ := by
        rw [UInt32.ofNat_toNat, readDescription]

def completedCodec : Codec (List UInt32) where
  empty := []
  encode ids := ((ids.map UInt32.toNat).map (varintField 1)).flatten
  mergeField tag wire ids :=
    match tag with
    | 1 => fun bytes =>
        (mergeRepeated wire bytes).map fun r => (ids ++ r.1.map UInt32.ofNat, r.2)
    | _ => mergeUnknown ids wire tag
  shrinks tag wire ids := by
    split
    · exact (mergeRepeated_shrinks wire).map fun v => ids ++ v.map UInt32.ofNat
    · exact mergeUnknown_shrinks ids wire tag

theorem foldl_completed (ids acc : List UInt32) :
    (ids.map UInt32.toNat).foldl (fun acc v => acc ++ [v].map UInt32.ofNat) acc =
      acc ++ ids := by
  induction ids generalizing acc with
  | nil => simp
  | cons id rest ih =>
      rw [List.map_cons, List.foldl_cons, ih]
      simp

theorem completedCodec_lawful : completedCodec.Lawful := by
  intro ids _
  have id_lt : ∀ v ∈ ids.map UInt32.toNat, v < 2 ^ 64 := by
    intro v mem
    obtain ⟨id, -, rfl⟩ := List.mem_map.mp mem
    exact uint32_lt id
  have read :
      completedCodec.decodeFrom [] ((ids.map UInt32.toNat).map (varintField 1) ++ []).flatten =
      some ((ids.map UInt32.toNat).foldl (fun acc v => acc ++ [v].map UInt32.ofNat) []) :=
    completedCodec.decodeFrom_repeatedVarint (g := fun acc v => acc ++ v.map UInt32.ofNat) _ []
      (fun _ _ => rfl) (show 0 < 1 by decide) (by decide) id_lt
  rw [foldl_completed, List.append_nil, List.nil_append] at read
  exact read

/-- The ids of some files take no more bytes than the files. -/
theorem length_completed_le {m : Manifest} {ids : List UInt32} (listed : ids.Sublist m.files.keys) :
    (completedCodec.encode ids).length ≤ (manifestCodec.encode m).length := by
  have entry : ∀ e ∈ m.files.entries, (varintField 1 e.1.toNat).length ≤
      (messageField (entryCodec fileDetailCodec) 2 (e.1, e.2)).length := by
    intro e _
    have outer := length_le_bytesField 2 ((entryCodec fileDetailCodec).encode (e.1, e.2))
    by_cases zero : e.1 = 0
    · have two : (varintField 1 (0 : UInt32).toNat).length = 2 := by decide
      rw [zero, two, messageField, bytesField, List.length_append, List.length_append]
      have key : (encodeKey 2 .lengthDelimited).length = 1 := by decide
      have pos :=
        length_encodeVarint_pos ((entryCodec fileDetailCodec).encode ((0 : UInt32), e.2)).length
      omega
    · unfold messageField
      simp only [entryCodec, if_neg zero, List.flatten_cons, List.length_append] at outer ⊢
      omega
  calc (completedCodec.encode ids).length
      ≤ ((m.files.keys.map UInt32.toNat).map (varintField 1)).flatten.length :=
        ((listed.map _).map _).flatten.length_le
    _ = (m.files.entries.map fun e => (varintField 1 e.1.toNat).length).sum := by
        rw [List.length_flatten, AList.keys, List.keys, List.map_map, List.map_map, List.map_map]
        rfl
    _ ≤ (m.files.entries.map fun e =>
          (messageField (entryCodec fileDetailCodec) 2 (e.1, e.2)).length).sum :=
        List.sum_le_sum entry
    _ = ((mapEntries m.files).map (messageField (entryCodec fileDetailCodec) 2)).flatten.length := by
        rw [List.length_flatten, mapEntries, List.map_map, List.map_map, List.map_reverse,
          List.sum_reverse]
        rfl
    _ ≤ (manifestCodec.encode m).length := by
        simp only [manifestCodec, List.flatten_append, List.length_append]
        omega
/-- `ConfirmationIndexes`. -/
def indexesCodec : Codec (List UInt64) where
  empty := []
  encode indexes := ((indexes.map UInt64.toNat).map (varintField 1)).flatten
  mergeField tag wire indexes :=
    match tag with
    | 1 => fun bytes =>
        (mergeRepeated wire bytes).map fun r => (indexes ++ r.1.map UInt64.ofNat, r.2)
    | _ => mergeUnknown indexes wire tag
  shrinks tag wire indexes := by
    split
    · exact (mergeRepeated_shrinks wire).map fun v => indexes ++ v.map UInt64.ofNat
    · exact mergeUnknown_shrinks indexes wire tag

theorem foldl_indexes (indexes acc : List UInt64) :
    (indexes.map UInt64.toNat).foldl (fun acc v => acc ++ [v].map UInt64.ofNat) acc =
      acc ++ indexes := by
  induction indexes generalizing acc with
  | nil => simp
  | cons index rest ih =>
      rw [List.map_cons, List.foldl_cons, ih]
      simp

theorem indexesCodec_lawful : indexesCodec.Lawful := by
  intro indexes _
  have index_lt : ∀ v ∈ indexes.map UInt64.toNat, v < 2 ^ 64 := by
    intro v mem
    obtain ⟨index, -, rfl⟩ := List.mem_map.mp mem
    exact index.toNat_lt
  have read :
      indexesCodec.decodeFrom [] ((indexes.map UInt64.toNat).map (varintField 1) ++ []).flatten =
      some ((indexes.map UInt64.toNat).foldl (fun acc v => acc ++ [v].map UInt64.ofNat) []) :=
    indexesCodec.decodeFrom_repeatedVarint (g := fun acc v => acc ++ v.map UInt64.ofNat) _ []
      (fun _ _ => rfl) (show 0 < 1 by decide) (by decide) index_lt
  rw [foldl_indexes, List.append_nil, List.nil_append] at read
  exact read

def confirmationsCodec : Codec (HashMap UInt32 (List UInt64)) where
  empty := ∅
  encode m := ((mapEntries m).map (messageField (entryCodec indexesCodec) 1)).flatten
  mergeField tag wire m :=
    match tag with
    | 1 => fun bytes =>
        (mergeMessage (entryCodec indexesCodec) wire
            (entryCodec indexesCodec).empty bytes).map
          fun r => (m.insert r.1.1 r.1.2, r.2)
    | _ => mergeUnknown m wire tag
  shrinks tag wire m := by
    split
    · exact (mergeMessage_shrinks (entryCodec indexesCodec) wire _).map
        fun v => m.insert v.1 v.2
    · exact mergeUnknown_shrinks m wire tag

theorem confirmationsCodec_lawful : confirmationsCodec.Lawful := by
  intro m fits
  have entry_lt : ∀ e ∈ mapEntries m,
      ((entryCodec indexesCodec).encode e).length < 2 ^ 64 := by
    intro e mem
    have field : messageField (entryCodec indexesCodec) 1 e ∈
        (mapEntries m).map (messageField (entryCodec indexesCodec) 1) :=
      List.mem_map_of_mem mem
    exact Nat.lt_trans (length_le_bytesField 1 _)
      (Nat.lt_of_le_of_lt (length_le_flatten field) fits)
  have read : confirmationsCodec.decodeFrom ∅
      ((mapEntries m).map (messageField (entryCodec indexesCodec) 1) ++ []).flatten =
        some ((mapEntries m).foldl (fun acc e => acc.insert e.1 e.2) ∅) :=
    Codec.decodeFrom_entries indexesCodec_lawful confirmationsCodec _ _ (fun _ _ => rfl)
      (by decide) (by decide) entry_lt
  rw [foldl_mapEntries, List.append_nil] at read
  exact read

/-! ## The `oneof` message -/

/-- A message of the `oneof` is one nested message; its tag tells which. -/
def encodeMessage : Message → Bytes
  | .unset => []
  | .manifest m => messageField manifestCodec 1 m
  | .confirmations m => messageField confirmationsCodec 2 m
  | .startIndex index => messageField startIndexCodec 3 index
  | .start id => messageField startCodec 4 id
  | .end_ id => messageField endCodec 5 id
  | .failure id reason description => messageField failureCodec 6 ⟨id, reason, description⟩
  | .done reason => messageField doneCodec 7 reason
  | .completed ids => messageField completedCodec 8 ids

/-- Merge a nested message into the one of the same kind, or into a default one
when the `oneof` holds another kind. -/
def mergeMessageField (tag : Nat) (wire : WireType) (message : Message) :
    Bytes → Option (Message × Bytes) :=
  match tag with
  | 1 => fun bytes =>
      (mergeMessage manifestCodec wire
          (match message with | .manifest m => m | _ => manifestCodec.empty) bytes).map
        fun r => (.manifest r.1, r.2)
  | 2 => fun bytes =>
      (mergeMessage confirmationsCodec wire
          (match message with | .confirmations m => m | _ => confirmationsCodec.empty)
          bytes).map
        fun r => (.confirmations r.1, r.2)
  | 3 => fun bytes =>
      (mergeMessage startIndexCodec wire
          (match message with | .startIndex i => i | _ => startIndexCodec.empty) bytes).map
        fun r => (.startIndex r.1, r.2)
  | 4 => fun bytes =>
      (mergeMessage startCodec wire
          (match message with | .start id => id | _ => startCodec.empty) bytes).map
        fun r => (.start r.1, r.2)
  | 5 => fun bytes =>
      (mergeMessage endCodec wire
          (match message with | .end_ id => id | _ => endCodec.empty) bytes).map
        fun r => (.end_ r.1, r.2)
  | 6 => fun bytes =>
      (mergeMessage failureCodec wire
          (match message with
            | .failure id reason description => ⟨id, reason, description⟩
            | _ => failureCodec.empty) bytes).map
        fun r => (.failure r.1.id r.1.reason r.1.description, r.2)
  | 7 => fun bytes =>
      (mergeMessage doneCodec wire
          (match message with | .done reason => reason | _ => doneCodec.empty) bytes).map
        fun r => (.done r.1, r.2)
  | 8 => fun bytes =>
      (mergeMessage completedCodec wire
          (match message with | .completed ids => ids | _ => completedCodec.empty)
          bytes).map
        fun r => (.completed r.1, r.2)
  | _ => mergeUnknown message wire tag

theorem mergeMessageField_shrinks (tag : Nat) (wire : WireType) (message : Message) :
    Shrinks (mergeMessageField tag wire message) := by
  unfold mergeMessageField
  split
  · exact (mergeMessage_shrinks manifestCodec wire _).map Message.manifest
  · exact (mergeMessage_shrinks confirmationsCodec wire _).map Message.confirmations
  · exact (mergeMessage_shrinks startIndexCodec wire _).map Message.startIndex
  · exact (mergeMessage_shrinks startCodec wire _).map Message.start
  · exact (mergeMessage_shrinks endCodec wire _).map Message.end_
  · exact (mergeMessage_shrinks failureCodec wire _).map
      fun f => Message.failure f.id f.reason f.description
  · exact (mergeMessage_shrinks doneCodec wire _).map Message.done
  · exact (mergeMessage_shrinks completedCodec wire _).map Message.completed
  · exact mergeUnknown_shrinks message wire tag

def messageCodec : Codec Message where
  empty := .unset
  encode := encodeMessage
  mergeField := mergeMessageField
  shrinks := mergeMessageField_shrinks

/-- One nested message of the `oneof`, read from the unset message. -/
theorem decode_oneof {N : Type} {D : Codec N} (lawful : D.Lawful) {tag : Nat}
    {f : N → Message} {value : N}
    (merge : ∀ bytes, mergeMessageField tag .lengthDelimited .unset bytes =
      (mergeMessage D .lengthDelimited D.empty bytes).map fun r => (f r.1, r.2))
    (positive : 0 < tag) (small : tag < 2 ^ 29)
    (fits : (messageField D tag value).length < 2 ^ 64) :
    messageCodec.decode (messageField D tag value) = some (f value) := by
  have inner := length_le_bytesField tag (D.encode value)
  have read : messageCodec.decodeFrom .unset (messageField D tag value :: []).flatten =
      messageCodec.decodeFrom (f value) ([] : List Bytes).flatten :=
    messageCodec.decodeFrom_messageField lawful merge positive small
      (Nat.lt_trans inner fits)
  rw [List.flatten_cons, List.flatten_nil, List.append_nil] at read
  exact read

theorem messageCodec_lawful : messageCodec.Lawful := by
  intro message fits
  cases message with
  | unset => rfl
  | manifest m =>
      exact decode_oneof (f := .manifest) manifestCodec_lawful (fun _ => rfl)
        (by decide) (by decide) fits
  | confirmations m =>
      exact decode_oneof (f := .confirmations) confirmationsCodec_lawful (fun _ => rfl)
        (by decide) (by decide) fits
  | startIndex index =>
      exact decode_oneof (f := .startIndex) startIndexCodec_lawful (fun _ => rfl)
        (by decide) (by decide) fits
  | start id =>
      exact decode_oneof (f := .start) (D := startCodec) uint32Codec_lawful (fun _ => rfl)
        (by decide) (by decide) fits
  | end_ id =>
      exact decode_oneof (f := .end_) (D := endCodec) uint32Codec_lawful (fun _ => rfl)
        (by decide) (by decide) fits
  | failure id reason description =>
      exact decode_oneof (f := fun v => .failure v.id v.reason v.description)
        failureCodec_lawful (fun _ => rfl) (by decide) (by decide) fits
  | done reason =>
      exact decode_oneof (f := .done) (D := doneCodec) uint32Codec_lawful (fun _ => rfl)
        (by decide) (by decide) fits
  | completed ids =>
      exact decode_oneof (f := .completed) completedCodec_lawful (fun _ => rfl)
        (by decide) (by decide) fits

end Cccp
