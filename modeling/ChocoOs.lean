import ChocoOs.Lib.Loop
import ChocoOs.Lib.Linked
import ChocoOs.Lib.Tiling
import ChocoOs.Heap.Malloc
import ChocoOs.Heap.Segments
import ChocoOs.Heap.Headers
import ChocoOs.Heap.Invariant
import ChocoOs.Heap.Run
import ChocoOs.Heap.WellFormed
import ChocoOs.Lib.Arena
import ChocoOs.Lib.Bitmap
import ChocoOs.Lib.PathTree
import ChocoOs.Lib.RootedTree
import ChocoOs.Lib.Stack
import ChocoOs.Pmm.Alloc
import ChocoOs.Pmm.Run
import ChocoOs.Sched.Context
import ChocoOs.Sched.Run
import ChocoOs.Vfs.Directories
import ChocoOs.Vfs.Removal
import ChocoOs.Vfs.Run
import ChocoOs.Vmm.Descend
import ChocoOs.Vmm.Processor
import ChocoOs.Vmm.Run
import ChocoOs.Lib.Fields
import ChocoOs.Lib.Resolve
import ChocoOs.Shell.Commands
import ChocoOs.Shell.Cwd
import ChocoOs.Initrd.Load
import ChocoOs.Chat.Integrity
import ChocoOs.E1000.Receive
import ChocoOs.E1000.Transmit
import ChocoOs.Export.Bpe
import ChocoOs.Framebuffer.DoubleBuffer
import ChocoOs.Lib.CString
import ChocoOs.Lib.Cells
import ChocoOs.Lib.Checksum
import ChocoOs.Lib.Heap
import ChocoOs.Llama.Encode
import ChocoOs.Llama.Math
import ChocoOs.Llama.Registry
import ChocoOs.Net.Codec
import ChocoOs.Net.Dhcp
import ChocoOs.Net.DhcpOptions
import ChocoOs.Net.DhcpSafety
import ChocoOs.Net.Dns
import ChocoOs.Net.Echo
import ChocoOs.Net.Mailbox
import ChocoOs.Qwen.Encode
import ChocoOs.Qwen.Fidelity
import ChocoOs.Heap.Coalesced
import ChocoOs.Heap.DoubleFree
import ChocoOs.Heap.FirstFit
import ChocoOs.Heap.Realloc
import ChocoOs.Pmm.Exact
import ChocoOs.Sched.Fairness
import ChocoOs.Keyboard.Handler
import ChocoOs.Keyboard.Queue
import ChocoOs.Net.Authentic
import ChocoOs.Net.Ping
import ChocoOs.Lib.Reading
import ChocoOs.Chat.Draw
import ChocoOs.Chat.Redraw
import ChocoOs.Chat.Texts
import ChocoOs.Chat.Stream
import ChocoOs.Chat.Wrap
import ChocoOs.Chat.Newest
import ChocoOs.Chat.Running
import ChocoOs.Export.Checkpoint
import ChocoOs.Qwen.Layout
import ChocoOs.Sched.Running
import ChocoOs.Initrd.Bounds
import ChocoOs.Llama.StrBuffer
import ChocoOs.Llm.Answer
import ChocoOs.Llm.Limit
import ChocoOs.Llm.StrBuffer
import ChocoOs.Vfs.Bytes
import ChocoOs.Vfs.Limits
import ChocoOs.Heap.Client
import ChocoOs.Llama.Load
import ChocoOs.Llm.Load
import ChocoOs.Llama.Caches
import ChocoOs.Llama.Leftover
import ChocoOs.Llama.Sample
import ChocoOs.Llm.Isolation
import ChocoOs.Initrd.Modules
import ChocoOs.Lib.Block
import ChocoOs.Lib.Threshold
import ChocoOs.Llama.Nucleus
import ChocoOs.Llama.TokenizerText
import ChocoOs.Llm.Chunks
import ChocoOs.Llm.Indices
import ChocoOs.Llm.Parsing
import ChocoOs.Llm.SanitizeMemory
import ChocoOs.Qwen.Quantized
import ChocoOs.Qwen.Rounding
import ChocoOs.Net.DhcpScan
import ChocoOs.Net.ChecksumLaw
import ChocoOs.Net.DnsSafety
import ChocoOs.Net.ArpCache
import ChocoOs.Lib.Scan
import ChocoOs.Kprintf.Format
import ChocoOs.Kprintf.Cursor
import ChocoOs.Kprintf.Number
import ChocoOs.Kprintf.Truncation
import ChocoOs.Kprintf.Integers
import ChocoOs.Kprintf.Strtol
import ChocoOs.Kprintf.ToString
import ChocoOs.Net.Address
import ChocoOs.Shell.Words
import ChocoOs.Lib.History
import ChocoOs.Term.Terminal
import ChocoOs.Shell.LineEditor
import ChocoOs.Shell.EditorRun
import ChocoOs.Term.Cursor
import ChocoOs.Term.Bounds
import ChocoOs.Shell.Screen
import ChocoOs.Lib.ByteMem
import ChocoOs.Memory.Memmove
import ChocoOs.Framebuffer.Scroll
import ChocoOs.Lib.Xorshift
import ChocoOs.Tok.Sorting
import ChocoOs.Llama.Draws
import ChocoOs.Llm.Coins
import ChocoOs.Llm.Decoding
import ChocoOs.Lib.Transition
import ChocoOs.Snake.Game
import ChocoOs.Lib.Trail
import ChocoOs.Snake.Update
import ChocoOs.Snake.Body
import ChocoOs.Snake.Run
import ChocoOs.Snake.Tour
import ChocoOs.Pong.Game
import ChocoOs.Net.Lan
import ChocoOs.Shell.Typing
import ChocoOs.Qwen.Forward
