import IFreeChat.Basis.Extents
import IFreeChat.Ifc.Feiq
import IFreeChat.MemPool.Pool

/-!
# Blocks of the pool of the program

`ifc->pool` gives the blocks of messages and of chatboxes.  Since `mem_pool_free` takes the first
word of a block for its size, it can give a block that meets one in use; what the block in use
holds is overwritten then.
-/

open Basis

namespace IFreeChat

/-- The addresses that `mem_pool_alloc` takes for `size` bytes at `addr`, with the word before
them. -/
def MemPool.extent (addr size : Nat) : Extent := ⟨addr - sizeofSize, sizeofSize + size⟩

/-- `sizeof(chatbox_t)`. -/
def sizeofChatbox : Nat := 120

/-- The addresses taken for a `msg_t`. -/
def msgExtent (addr : Nat) : Extent := MemPool.extent addr Feiq.sizeofMsg

/-- The addresses taken for a `chatbox_t`. -/
def chatboxExtent (addr : Nat) : Extent := MemPool.extent addr sizeofChatbox

end IFreeChat
