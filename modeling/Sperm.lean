import Sperm.Lib.Run
import Sperm.Lib.Loop
import Sperm.Lib.Pool
import Sperm.Lib.Chain
import Sperm.Lib.Channel
import Sperm.Lib.PriorityQueue
import Sperm.Lib.Cloning
import Sperm.Lib.Monitor
import Sperm.Lib.QueueMonitor
import Sperm.Lib.LittleEndian
import Sperm.Lib.Checked
import Sperm.Lib.Radix
import Sperm.Lib.Gray
import Sperm.Lib.Munch
import Sperm.Lib.Flex
import Sperm.Lib.FlexRules
import Sperm.Lib.Yacc
import Sperm.Lib.ContextFree
import Sperm.Lib.Brackets
import Sperm.Lib.Traversal
import Sperm.Lib.TreeMemory
import Sperm.Lib.SearchTree
import Sperm.Lib.TreeEnumeration
import Sperm.Lib.Balance
import Sperm.Lib.TreePath
import Sperm.Lib.Levels
import Sperm.Lib.Segmentation
import Sperm.Lib.Backtracking
import Sperm.Lib.Subsequence
import Sperm.Lib.Window
import Sperm.Lib.IntervalTable
import Sperm.Lib.Flood
import Sperm.Lib.Tally
import Sperm.Lib.Sorted
import Sperm.Lib.ConsecutiveRuns
import Sperm.Lib.Walks
import Sperm.Lib.Bfs
import Sperm.Common.ByteArray
import Sperm.Common.ByteArrayRun
import Sperm.Common.ByteArrayGrowth
import Sperm.Common.Compress
import Sperm.Common.CompressBuffer
import Sperm.Common.Serializer
import Sperm.Common.Malformed
import Sperm.Common.FutexCondition
import Sperm.Common.Timespec
import Sperm.Common.Lock
import Sperm.Common.LkFree
import Sperm.Common.LkFreeUse
import Sperm.Common.DLinkedListQueue
import Sperm.Common.SLinkedListQueue
import Sperm.Common.BlockingListQueue
import Sperm.Common.SyncedQueue
import Sperm.Common.FileDescriptorCondition
import Sperm.Common.BoundedBlockingQueue
import Sperm.Common.BlockingPriorityQueue
import Sperm.Common.PriorityOrder
import Sperm.Itachi.Message
import Sperm.Itachi.Handler
import Sperm.Itachi.Delivery
import Sperm.Itachi.Urgent
import Sperm.Itachi.RefCount
import Sperm.Itachi.AsyncSocket
import Sperm.Itachi.SocketCalls
import Sperm.Itachi.MessageWrite
import Sperm.Itachi.Stream
import Sperm.Itachi.Echo
import Sperm.Itachi.Shutdown
import Sperm.Sasuke.Rpc
import Sperm.Sasuke.ServiceCallBack
import Sperm.Sasuke.Client
import Sperm.Sasuke.Device
import Sperm.Sasuke.Connection
import Sperm.Sasuke.Cluster
import Sperm.Mysql.SQLInjector
import Sperm.Mysql.Retry
import Sperm.Mr.MultipleTableInputFormat
import Sperm.Mr.CompareHBaseTable
import Sperm.Mr.TableInput
import Sperm.Mr.TableJob
import Sperm.Nasty.Lexer
import Sperm.Nasty.Parser
import Sperm.Nasty.Flex
import Sperm.Nasty.Grammar
import Sperm.Nasty.Print
import Sperm.Nasty.Align
import Sperm.Playboard.IndexValueAggregator
import Sperm.Playboard.FixedSizeHeap
import Sperm.Playboard.HyperLogLog
import Sperm.Leetcode.WordBreak
import Sperm.Leetcode.Palindrome
import Sperm.Leetcode.LevelOrder
import Sperm.Leetcode.BuildTree
import Sperm.Leetcode.UniqueBST
import Sperm.Leetcode.ValidNumber
import Sperm.Leetcode.WildcardMatching
import Sperm.Leetcode.SurroundedRegions
import Sperm.Leetcode.FindSubstring
import Sperm.Leetcode.KSum
import Sperm.Leetcode.WordGraph
import Sperm.Leetcode.WordLadder
import Sperm.Leetcode.Floyd
import Sperm.Leetcode.WordLadder2
import Sperm.Leetcode.DivideIntegers
import Sperm.Leetcode.Atoi
import Sperm.Leetcode.Candy
import Sperm.Leetcode.ThreeSumClosest
import Sperm.Leetcode.GasStation
import Sperm.Leetcode.MaxProfit
import Sperm.Leetcode.MaxPathSum
import Sperm.Leetcode.SortedToBST
import Sperm.Leetcode.CloneGraph
import Sperm.Leetcode.CopyRandomList
import Sperm.Leetcode.MaxProfit2
import Sperm.Leetcode.ContainerWithMostWater
import Sperm.Leetcode.DistinctSubsequences
import Sperm.Leetcode.DecodeWays
import Sperm.Leetcode.InterleavingString
import Sperm.Leetcode.LongestPalindrome
import Sperm.Leetcode.LongestSubstring
import Sperm.Leetcode.MergeKLists
import Sperm.Leetcode.MergeSortArray
import Sperm.Leetcode.FlattenTree
import Sperm.Leetcode.NextRightPointers
import Sperm.Leetcode.ValidBST
import Sperm.Leetcode.ValidParentheses
import Sperm.Leetcode.GenerateParentheses
import Sperm.Leetcode.SubsetsWithDup
import Sperm.Leetcode.RestoreIp
import Sperm.Leetcode.GrayCode
import Sperm.Leetcode.LongestConsecutive
import Sperm.Leetcode.SingleNumber
import Sperm.Leetcode.DeleteDuplicates
import Sperm.Leetcode.ReverseBetween
import Sperm.Leetcode.PalindromeNumber
import Sperm.Leetcode.ReverseInteger
import Sperm.Leetcode.PascalTriangle
