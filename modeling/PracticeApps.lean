import PracticeApps.Library.EventMachine
import PracticeApps.Library.DecimalText
import PracticeApps.CalculatorApp.Platform
import PracticeApps.CalculatorApp.Model
import PracticeApps.CalculatorApp.ViewController
import PracticeApps.CalculatorApp.PendingSlot
import PracticeApps.CalculatorApp.Display
import PracticeApps.CalculatorApp.Chain
import PracticeApps.CalculatorApp.AllClear
import PracticeApps.CalculatorApp.ComputeKey
import PracticeApps.InspoQuotes.QuoteTableViewController
import PracticeApps.InspoQuotes.Unlock
import PracticeApps.Library.StableSort
import PracticeApps.Library.TableView
import PracticeApps.Library.ObjectTable
import PracticeApps.Todoey.Realm
import PracticeApps.Todoey.TodoListViewController
import PracticeApps.Todoey.Search
import PracticeApps.Todoey.CategoryViewController
import PracticeApps.Todoey.CategoryRows
import PracticeApps.FlashChat.ChatViewController
import PracticeApps.FlashChat.Scrolling
import PracticeApps.Library.Race
import PracticeApps.Network.DataTask
import PracticeApps.ByteCoin.ViewController
import PracticeApps.ByteCoin.Timeline
import PracticeApps.ByteCoin.Labels
import PracticeApps.Clima.WeatherViewController
import PracticeApps.Clima.Timeline
import PracticeApps.Clima.LatestIntent
import PracticeApps.Quizzler.Quiz
import PracticeApps.Quizzler.QuizViewController
import PracticeApps.Quizzler.Scoring
import PracticeApps.CalculatorApp.TypedNumeral
import PracticeApps.CalculatorApp.LastOperator
import PracticeApps.InspoQuotes.Transactions
import PracticeApps.Quizzler.Subscripts
import PracticeApps.EggTimer.Countdown
import PracticeApps.Library.Ownership
import PracticeApps.Todoey.Integrity
import PracticeApps.Todoey.ItemRows
import PracticeApps.Todoey.App
import PracticeApps.ARRuler.Measurement
import PracticeApps.BMIApp.BMICalculator
import PracticeApps.BMIApp.Verdict
import PracticeApps.BMIApp.Ranking
import PracticeApps.EggTimer.DoneLabel
import PracticeApps.Tipsy.Share
import PracticeApps.ComputedProperties.Contents
import PracticeApps.ComputedProperties.Pizza
import PracticeApps.Network.Session
import PracticeApps.ByteCoin.Traffic
import PracticeApps.Clima.Traffic
import PracticeApps.Network.OneCompletion
import PracticeApps.FlashChat.TitleAnimation
import PracticeApps.Library.ComparatorSort
import PracticeApps.Library.Cuts
import PracticeApps.ColorThief.MMCQ
import PracticeApps.ColorThief.MedianCut
import PracticeApps.ColorThief.Queue
import PracticeApps.ColorThief.Quantize
import PracticeApps.ColorThief.Palette
import PracticeApps.Library.LittleEndian
import PracticeApps.LevelDB.Coding
import PracticeApps.LevelDB.Log
import PracticeApps.LevelDB.LogRecovery
import PracticeApps.LevelDB.WriteBatch
import PracticeApps.LevelDB.SkipList
import PracticeApps.LevelDB.SkipListIterator
import PracticeApps.LevelDB.MemTable
import PracticeApps.LevelDB.History
import PracticeApps.LevelDB.DB
import PracticeApps.LevelDB.Writes
import PracticeApps.LevelDB.Recovery
import PracticeApps.LevelDB.Runs
import PracticeApps.Library.SortedMap
import PracticeApps.Firestore.LevelDbTransaction
import PracticeApps.Firestore.TransactionIterator
import PracticeApps.Firestore.Commit
import PracticeApps.Firestore.CommitBatch
import PracticeApps.Firestore.LlrbNode
import PracticeApps.Firestore.LlrbBalance
import PracticeApps.Firestore.LlrbErase
import PracticeApps.Firestore.TreeSortedMap
import PracticeApps.Firestore.ArraySortedMap
import PracticeApps.Firestore.ImmutableSortedMap
import PracticeApps.SwiftyJSON.JSON
import PracticeApps.SwiftyJSON.Paths
import PracticeApps.SwiftyJSON.Merge
import PracticeApps.Library.PercentEncoding
import PracticeApps.WhatFlower.ParameterEncoding
