import MarkupEditor.Storage.FileTree
import MarkupEditor.Store.Basic

namespace MarkupEditor

-- Saving may fail, and the storage may have changed even then.
class Storage (σ : Type) where
  load : σ → String → Except FileFault String
  save : σ → String → String → σ × Option FileFault

-- Texts in memory. It counts the writes and can be told to refuse them.
structure MemoryFiles where
  texts : Store String := Store.empty
  saves : Nat := 0
  refusing : Bool := false

instance : Storage MemoryFiles where
  load m path :=
    match m.texts.get? path with
    | some text => .ok text
    | none => .error .notFound
  save m path text :=
    if m.refusing then (m, some (.rejected path))
    else ({ m with texts := m.texts.set path text, saves := m.saves + 1 }, none)

-- The files of a tree, by their paths from a directory.
structure DiskFiles where
  tree : FileTree
  directory : String

instance : Storage DiskFiles where
  load d path := d.tree.readText (Path.join d.directory path)
  save d path text :=
    let (tree, fault) := d.tree.save (Path.join d.directory path) (Text.encode text)
    ({ d with tree }, fault)

end MarkupEditor
