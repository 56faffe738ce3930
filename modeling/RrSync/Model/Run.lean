import RrSync.Model.Sync

/-!
# `RrSync.Model.Run`: a run of a plan

The order in which the client and the servers call the three parts of a run. `is` are the
indices of the files that are installed, and `contents` are the bytes fed to the install of
an entry. A complete run installs all of `plan.files` in their order.
-/

set_option autoImplicit false

namespace RrSync

/-- A run of a plan without a network: the directories, the files in the order `is`, then the
end. -/
def runPlan [Sha256] (root : Root) (source destination : Manifest) (plan : Plan) (is : List Nat)
    (contents : Entry → Bytes) : FsM Unit := do
  prepare root source plan
  is.forM fun i => do
    let e ← index source.entries i "source.entries"
    install root e destination plan (contents e)
  finish root source plan

/-! ### A small run

A file is replaced by a directory with a file in it, a file is created, and a file is
removed. All contents are empty, so their hash is the only one that is computed. -/

/-- The SHA-256 hash of the empty content. -/
def emptyHash : Hash := #v[0xe3, 0xb0, 0xc4, 0x42, 0x98, 0xfc, 0x1c, 0x14, 0x9a, 0xfb, 0xf4, 0xc8,
  0x99, 0x6f, 0xb9, 0x24, 0x27, 0xae, 0x41, 0xe4, 0x64, 0x9b, 0x93, 0x4c, 0xa4, 0x95, 0x99, 0x1b,
  0x78, 0x52, 0xb8, 0x55]

/-- SHA-256 in a run where only the empty content is hashed. -/
@[reducible] def emptySha : Sha256 := ⟨fun _ => emptyHash⟩

/-- A source with a directory where the destination has a file. -/
def smallSource : Manifest :=
  ⟨[⟨"a", .directory, 0, 7, 0, none⟩, ⟨"a/f", .file, 0, 7, 0, some emptyHash⟩,
    ⟨"b", .file, 0, 7, 0, some emptyHash⟩]⟩

/-- A destination with that file and one that the source lacks. -/
def smallDestination : Manifest :=
  ⟨[⟨"a", .file, 0, 0, 0, some emptyHash⟩, ⟨"c", .file, 0, 0, 0, some emptyHash⟩]⟩

/-- The destination on a disk. -/
def smallDisk : Disk := (exec (.openLock "c".utf8) (exec (.openLock "a".utf8) .empty).2).2

/-- The options `--delete --checksum`. -/
def smallOptions : Options := ⟨true, true, false⟩

/-- The plan: the file makes way for the directory, two files are sent, one is removed. -/
def smallPlan : Plan where
  operations := [⟨.mkdir, "a"⟩, ⟨.create, "a/f"⟩, ⟨.create, "b"⟩, ⟨.delete, "c"⟩]
  files := [1, 2]
  directories := [0]
  removals := [⟨"c", .file, 0, 0, 0, some emptyHash⟩]
  conflicts := [("a", [⟨"a", .file, 0, 0, 0, some emptyHash⟩])]

/-- This is what `plan` says of the two manifests. -/
theorem small_plan : plan smallSource smallDestination smallOptions = .ok smallPlan := by
  decide +kernel

/-- The run of the small plan. -/
def smallRun (destination : Manifest) : FsM Unit :=
  @runPlan emptySha .opened smallSource destination smallPlan smallPlan.files fun _ => []

example : ((smallRun smallDestination).run exec smallDisk).1 = .ok () := by decide +kernel

/-- The small destination with a symbolic link. -/
def linkedDestination : Manifest :=
  ⟨smallDestination.entries ++ [⟨"z", .guarded, 0, 0, 0, none⟩]⟩

/-- The same disk with a symbolic link, which a scan lists as guarded. -/
def linkedDisk : Disk where
  tree := smallDisk.tree.put "z".utf8 ⟨.symlink, ⟨0, 0, Time.zero_valid⟩, 0⟩ (by decide +kernel)
  temp := none
  tick := smallDisk.tick
  env := smallDisk.env
  journal := []

/-- The guarded entry changes nothing in the plan of the rest. -/
theorem linked_plan : plan smallSource linkedDestination smallOptions = .ok smallPlan := by
  decide +kernel

/-! ### A file of two chunks

The chunks have 4096 bytes, the least that the second protocol allows, so the last one has one byte. -/

/-- A file of two chunks, the second one of a single byte. -/
def pairFile : Bytes := List.replicate 4096 7 ++ [8]

/-- The file as an object of a tree. -/
def pairNode : Node := ⟨.file pairFile, ⟨0, 0, Time.zero_valid⟩, 1⟩

/-- It fits into an empty tree. -/
theorem pair_fits : Disk.empty.tree.Fits "f".utf8 pairNode := by decide +kernel

/-- A disk with this file and nothing else. -/
def pairDisk : Disk where
  tree := Disk.empty.tree.put "f".utf8 pairNode pair_fits
  temp := none
  tick := 2
  env := Disk.empty.env
  journal := []

/-- The SHA-256 hash of the file. -/
def pairHash : Hash :=
  #v[0x5b, 0x40, 0x53, 0x9d, 0x09, 0x5c, 0xa1, 0xfc, 0x16, 0x21, 0xc4, 0xa8, 0x38, 0x00, 0xe2,
    0xe0, 0xd5, 0x6d, 0x87, 0xa6, 0xd4, 0x51, 0x4c, 0xf4, 0x74, 0x29, 0x07, 0x61, 0x08, 0x9a,
    0x3a, 0x7d]

/-- The hash of its first chunk. -/
def firstHash : Hash :=
  #v[0xc9, 0xac, 0x7b, 0x06, 0x24, 0x82, 0x4f, 0x84, 0x4f, 0x6c, 0x7f, 0x3d, 0x50, 0xfa, 0xb9,
    0x74, 0x1a, 0x89, 0x14, 0xe8, 0x78, 0x46, 0x7e, 0x8d, 0xaa, 0xed, 0xca, 0x14, 0x3a, 0x34,
    0xd9, 0x0b]

/-- The hash of its last chunk. -/
def lastHash : Hash :=
  #v[0xbe, 0xea, 0xd7, 0x79, 0x94, 0xcf, 0x57, 0x33, 0x41, 0xec, 0x17, 0xb5, 0x8b, 0xbf, 0x7e,
    0xb3, 0x4d, 0x27, 0x11, 0xc9, 0x93, 0xc1, 0xd9, 0x76, 0xb1, 0x28, 0xb3, 0x18, 0x8d, 0xc1,
    0x82, 0x9a]

/-- The scope of a push of the file, on the server. -/
def pushScope : Hash :=
  #v[0x49, 0x49, 0xc7, 0xdd, 0x92, 0xda, 0x12, 0x3f, 0xfc, 0xbd, 0xf4, 0x3d, 0x3a, 0x66, 0xad,
    0x20, 0x1d, 0x75, 0xe5, 0x61, 0xba, 0x36, 0xc0, 0x38, 0xff, 0xd8, 0x9c, 0x8f, 0xe4, 0x29,
    0x46, 0x06]

/-- The scope of a pull of the file, on the client. -/
def pullScope : Hash :=
  #v[0x4a, 0x32, 0x20, 0x32, 0x81, 0x46, 0xe8, 0xbf, 0x4d, 0x6c, 0xd5, 0x21, 0xba, 0xc3, 0xb5,
    0x55, 0xa1, 0xcd, 0x34, 0x70, 0xd9, 0x02, 0x98, 0x6a, 0xdf, 0x65, 0x93, 0x56, 0x89, 0x6a,
    0x88, 0xae]

/-- The hash that names the cache directory of the push. -/
def pushKey : Hash :=
  #v[0x49, 0xa7, 0xa1, 0xf7, 0x9f, 0x15, 0x19, 0x8f, 0x0c, 0xe2, 0x2a, 0xca, 0x64, 0xaa, 0xe9,
    0xa0, 0x43, 0xa6, 0x21, 0x63, 0xd7, 0xf6, 0xfb, 0xa7, 0x50, 0x60, 0x33, 0xa7, 0xf1, 0x4b,
    0xd3, 0x73]

/-- The hash that names the cache directory of the pull. -/
def pullKey : Hash :=
  #v[0xa3, 0x48, 0x4f, 0x89, 0x1f, 0x23, 0xc7, 0x00, 0x55, 0xe0, 0x7c, 0xa1, 0x9a, 0xc2, 0x6e,
    0x90, 0xd5, 0x45, 0xbb, 0x70, 0x31, 0x4c, 0x61, 0x45, 0x20, 0x2d, 0x0a, 0x93, 0x98, 0x81,
    0xbf, 0x3e]

/-- The hash of an activity record of time zero. -/
def activityHash : Hash :=
  #v[0x1e, 0x0f, 0x84, 0xba, 0xef, 0xc2, 0x63, 0x2e, 0x25, 0xb3, 0x5a, 0xfa, 0xf4, 0xe7, 0x7e,
    0x68, 0x44, 0x4d, 0xa9, 0x98, 0x6b, 0x9d, 0xa1, 0x2c, 0x28, 0xc2, 0xd0, 0xdf, 0x64, 0x02,
    0x29, 0xbf]

/-- SHA-256 on all that is hashed in the transfers of this file. The contents differ in their lengths,
but for those of the two keys, which contain the scope. -/
@[reducible] def pairSha : Sha256 where
  digest b :=
    if b.length = 4097 then pairHash
    else if b.length = 4096 then firstHash
    else if b.length = 1 then lastHash
    else if b.length = 54 then pushScope
    else if b.length = 53 then pullScope
    else if b.length = 102 then if b[26]? = some 0x49 then pushKey else pullKey
    else if b.length = 16 then activityHash
    else emptyHash

end RrSync
